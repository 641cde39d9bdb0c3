import Frontend.Proofs.Graph

/-!
Certificates for functions under construction. For each block a certificate names the registers that
are sure to be assigned where the block starts; an edge may only lead to a block that asks for no
more than its source has to offer. Each step of construction keeps a certificate, and a finished
function that has one is well formed and well typed.
-/
namespace Frontend.Ir

namespace Builder

/-- Adds instructions to the current block, the registers they assign being the next ones. -/
def extend (b : Builder) (code : List Instr) : Builder :=
  { b with
    block := { b.block with instrs := b.block.instrs ++ code }
    nextReg := b.nextReg + (results code).length }

theorem emit_eq (b : Builder) (op : Op) :
    b.emit op = (⟨b.nextReg⟩, b.extend [⟨some ⟨b.nextReg⟩, op⟩]) := rfl

theorem push_eq (b : Builder) (op : Op) : b.push ⟨none, op⟩ = b.extend [⟨none, op⟩] := rfl

@[simp] theorem extend_nil (b : Builder) : b.extend [] = b := by simp [extend]

@[simp] theorem extend_extend (b : Builder) (is js : List Instr) :
    (b.extend is).extend js = b.extend (is ++ js) := by
  simp [extend, Nat.add_assoc]

@[simp] theorem extend_id (b : Builder) (code : List Instr) : (b.extend code).id = b.id := rfl
@[simp] theorem extend_name (b : Builder) (code : List Instr) : (b.extend code).name = b.name := rfl
@[simp] theorem extend_ret (b : Builder) (code : List Instr) : (b.extend code).ret = b.ret := rfl

@[simp] theorem extend_params (b : Builder) (code : List Instr) :
    (b.extend code).params = b.params := rfl

theorem mem_blocks {b : Builder} {B : Block} : B ∈ b.blocks ↔ B ∈ b.earlier ∨ B = b.block := by
  simp [blocks]

end Builder

/-- What a terminator reads has the type it asks for. -/
inductive Terminator.Typed (P : Policy) (ret : Ty) (has : Reg → Ty → Prop) : Terminator → Prop where
  | bare : P.ret ret none → Typed P ret has (.ret none)
  | value {r ty} : P.ret ret (some ty) → has r ty → Typed P ret has (.ret (some r))
  | br {target} : Typed P ret has (.br target)
  | condBr {r yes no} : has r .bool → Typed P ret has (.condBr r yes no)
  | unreachable : Typed P ret has .unreachable

variable {P : Policy}

theorem Terminator.Typed.mono {ret : Ty} {has has' : Reg → Ty → Prop}
    (hr : ∀ r ty, has r ty → has' r ty)
    {t : Terminator} (h : t.Typed P ret has) : t.Typed P ret has' := by
  cases h with
  | bare hp => exact .bare hp
  | value hp hv => exact .value hp (hr _ _ hv)
  | br => exact .br
  | condBr hv => exact .condBr (hr _ _ hv)
  | unreachable => exact .unreachable

theorem Terminator.Typed.uses {ret : Ty} {has : Reg → Ty → Prop} {t : Terminator}
    (h : t.Typed P ret has) : ∀ r ∈ t.uses, ∃ ty, has r ty := by
  cases h <;> simp_all [Terminator.uses] <;> exact ⟨_, ‹_›⟩

/-- Registers assigned where a block ends. -/
def Block.ends (entry : BlockId → List Reg) (B : Block) : List Reg := entry B.id ++ results B.instrs

/-- `c` describes the place where the next instruction goes, `entry` gives the registers assigned
where a block starts, and `pending` are the blocks that were reserved and are still to be
started. -/
structure Certified (P : Policy) (declared : String → List Ty → Ty → Prop) (b : Builder) (c : Ctx)
    (entry : BlockId → List Reg) (pending : List BlockId) : Prop where
  next : c.types.length = b.nextReg
  params : b.params = numbered (c.types.take b.params.length)
  numbering : regsFrom 0 b.nextReg = regsFrom 0 b.params.length ++
    results (b.blocks.flatMap Block.instrs)
  distinct : (b.blocks.map (·.id) ++ pending).Nodup
  bounded : ∀ id ∈ b.blocks.map (·.id) ++ pending, id.index < b.nextBlock
  first : (b.blocks.map (·.id)).head? = some ⟨0⟩
  start : entry ⟨0⟩ ⊆ b.params.map Prod.fst
  avail : c.avail = b.block.ends entry
  code : ∀ B ∈ b.blocks, Checked P declared c.types (entry B.id) B.instrs
  terms : ∀ B ∈ b.blocks, ∀ t, B.terminator = some t →
    t.Typed P b.ret (Ctx.mk c.types (B.ends entry)).Has
  edges : ∀ B ∈ b.blocks, ∀ t, B.terminator = some t → ∀ id ∈ t.targets,
    id ∈ b.blocks.map (·.id) ++ pending ∧ entry id ⊆ B.ends entry

namespace Certified

variable {P : Policy} {declared declared' : String → List Ty → Ty → Prop} {b : Builder} {c : Ctx}
  {entry : BlockId → List Reg} {pending : List BlockId}

/-- A function that was just started has its parameters to offer. -/
theorem ofStart (id : Nat) (name : String) (tys : List Ty) (ret : Ty) :
    Certified P declared (.start id name tys ret) ⟨tys, regsFrom 0 tys.length⟩
      (fun _ => regsFrom 0 tys.length) [] where
  next := rfl
  params := by simp [Builder.start]
  numbering := by simp [Builder.start, Builder.blocks]
  distinct := by simp [Builder.start, Builder.blocks]
  bounded := by simp [Builder.start, Builder.blocks]
  first := rfl
  start := by simp [Builder.start]
  avail := by simp [Builder.start, Block.ends]
  code := by simp [Builder.start, Builder.blocks, Checked]
  terms := by simp [Builder.start, Builder.blocks]
  edges := by simp [Builder.start, Builder.blocks]

theorem declare (hd : ∀ f ps r, declared f ps r → declared' f ps r)
    (h : Certified P declared b c entry pending) : Certified P declared' b c entry pending :=
  { h with code := fun B hB => (h.code B hB).mono hd List.prefix_rfl }

section

variable (h : Certified P declared b c entry pending)

include h

theorem params_le : b.params.length ≤ c.types.length := by
  have := congrArg List.length h.numbering
  simp only [List.length_append, length_regsFrom] at this
  rw [h.next]
  omega

theorem params_fst : b.params.map Prod.fst = regsFrom 0 b.params.length := by
  rw [h.params, numbered_fst, List.length_take, Nat.min_eq_left h.params_le, length_numbered,
    List.length_take, Nat.min_eq_left h.params_le]

theorem extend {code : List Instr} {c' : Ctx} (hs : Straight P declared c code c') :
    Certified P declared (b.extend code) c' entry pending := by
  have hids : (b.extend code).blocks.map (·.id) = b.blocks.map (·.id) := by
    simp [Builder.blocks, Builder.extend]
  have hends : (b.extend code).block.ends entry = b.block.ends entry ++ results code := by
    simp [Builder.extend, Block.ends]
  have htypes : ∀ B ∈ b.earlier, ∀ t, B.terminator = some t →
      t.Typed P b.ret (Ctx.mk c'.types (B.ends entry)).Has := by
    intro B hB t ht
    have hle : (Ctx.mk c.types (B.ends entry)).Le ⟨c'.types, B.ends entry⟩ :=
      ⟨hs.le.types, List.Subset.refl _⟩
    exact (h.terms B (Builder.mem_blocks.mpr (.inl hB)) t ht).mono fun _ _ => hle.has
  constructor
  case next => rw [hs.length, h.next]; rfl
  case params =>
    obtain ⟨more, hmore⟩ := hs.le.types
    rw [Builder.extend_params, ← hmore, List.take_append_of_le_length h.params_le]
    exact h.params
  case numbering =>
    have := hs.numbering
    rw [hs.length, h.next, h.numbering] at this
    simpa [Builder.blocks, Builder.extend] using this
  case distinct => rw [hids]; exact h.distinct
  case bounded => rw [hids]; exact h.bounded
  case first => rw [hids]; exact h.first
  case start => exact h.start
  case avail => rw [hends, hs.avail, h.avail]
  case code =>
    intro B hB
    rcases Builder.mem_blocks.mp hB with hB | rfl
    · exact (h.code B (Builder.mem_blocks.mpr (.inl hB))).mono (fun _ _ _ => id) hs.le.types
    · have hold := (h.code b.block (Builder.mem_blocks.mpr (.inr rfl))).mono (fun _ _ _ => id)
        hs.le.types
      have hnew := hs.checked
      rw [h.avail] at hnew
      exact Checked.append.mpr ⟨hold, hnew⟩
  case terms =>
    intro B hB t ht
    rcases Builder.mem_blocks.mp hB with hB | rfl
    · exact htypes B hB t ht
    · have hle : (Ctx.mk c.types (b.block.ends entry)).Le
          ⟨c'.types, (b.extend code).block.ends entry⟩ :=
        ⟨hs.le.types, by rw [hends]; exact List.subset_append_left _ _⟩
      exact (h.terms b.block (Builder.mem_blocks.mpr (.inr rfl)) t ht).mono fun _ _ => hle.has
  case edges =>
    intro B hB t ht id hid
    rw [hids]
    rcases Builder.mem_blocks.mp hB with hB | rfl
    · exact h.edges B (Builder.mem_blocks.mpr (.inl hB)) t ht id hid
    · have := h.edges b.block (Builder.mem_blocks.mpr (.inr rfl)) t ht id hid
      rw [hends]
      exact ⟨this.1, List.Subset.trans this.2 (List.subset_append_left _ _)⟩

/-- Only blocks that are known already matter to a certificate. -/
theorem congr {entry' : BlockId → List Reg}
    (he : ∀ id ∈ b.blocks.map (·.id) ++ pending, entry' id = entry id) :
    Certified P declared b c entry' pending := by
  have hold : ∀ B ∈ b.blocks, entry' B.id = entry B.id := fun B hB =>
    he B.id (List.mem_append_left _ (List.mem_map_of_mem hB))
  have hends : ∀ B ∈ b.blocks, B.ends entry' = B.ends entry := by
    intro B hB
    rw [Block.ends, Block.ends, hold B hB]
  have hcur : b.block ∈ b.blocks := Builder.mem_blocks.mpr (.inr rfl)
  have hfirst : (⟨0⟩ : BlockId) ∈ b.blocks.map (·.id) := List.mem_of_head? h.first
  refine { h with start := ?_, avail := ?_, code := ?_, terms := ?_, edges := ?_ }
  · rw [he _ (List.mem_append_left _ hfirst)]
    exact h.start
  · rw [hends _ hcur]
    exact h.avail
  · intro B hB
    rw [hold B hB]
    exact h.code B hB
  · intro B hB
    rw [hends B hB]
    exact h.terms B hB
  · intro B hB t ht id hid
    have := h.edges B hB t ht id hid
    rw [hends B hB, he id this.1]
    exact this

/-- A reserved block may be given any registers to start with: no edge leads there yet. -/
theorem fresh (regs : List Reg) :
    Certified P declared b.freshBlock.2 c
      (fun id => if id = b.freshBlock.1 then regs else entry id) (b.freshBlock.1 :: pending) := by
  have hnew : ∀ id ∈ b.blocks.map (·.id) ++ pending, id ≠ b.freshBlock.1 := by
    rintro id hid rfl
    exact Nat.lt_irrefl _ (h.bounded _ hid)
  have h' : Certified P declared b c
      (fun id => if id = b.freshBlock.1 then regs else entry id) pending :=
    h.congr fun id hid => if_neg (hnew id hid)
  have hmem : ∀ id, id ∈ b.blocks.map (·.id) ++ b.freshBlock.1 :: pending ↔
      id = b.freshBlock.1 ∨ id ∈ b.blocks.map (·.id) ++ pending := by
    intro id
    simp only [List.mem_append, List.mem_cons]
    exact or_left_comm
  refine ⟨h'.next, h'.params, h'.numbering, ?_, ?_, h'.first, h'.start, h'.avail, h'.code, h'.terms,
    ?_⟩
  · exact List.perm_middle.nodup_iff.mpr
      (List.nodup_cons.mpr ⟨fun hid => hnew _ hid rfl, h.distinct⟩)
  · intro id hid
    rcases (hmem id).mp hid with rfl | hid
    · exact Nat.lt_succ_self _
    · exact Nat.lt_succ_of_lt (h.bounded id hid)
  · intro B hB t ht id hid
    have := h'.edges B hB t ht id hid
    exact ⟨(hmem id).mpr (.inr this.1), this.2⟩

/-- An edge is added unless the block is closed already. -/
theorem terminate {t : Terminator} (ht : t.Typed P b.ret c.Has)
    (he : ∀ id ∈ t.targets, id ∈ b.blocks.map (·.id) ++ pending ∧ entry id ⊆ c.avail) :
    Certified P declared (b.terminate t) c entry pending := by
  have hids : (b.terminate t).blocks.map (·.id) = b.blocks.map (·.id) := by
    simp [Builder.blocks, Builder.terminate, Block.terminate]
  have hcur : b.block ∈ b.blocks := Builder.mem_blocks.mpr (.inr rfl)
  have hold : ∀ B ∈ b.earlier, B ∈ b.blocks := fun B hB => Builder.mem_blocks.mpr (.inl hB)
  -- the terminator that the current block ends up with is the old one or `t`
  have hterm : ∀ u, (b.terminate t).block.terminator = some u →
      b.block.terminator = some u ∨ u = t := by
    intro u hu
    cases hb : b.block.terminator <;>
      simp_all [Builder.terminate, Block.terminate, eq_comm]
  refine { h with
    numbering := ?_, distinct := ?_, bounded := ?_, first := ?_, code := ?_, terms :=
      ?_, edges := ?_ }
  · have := h.numbering
    simpa [Builder.blocks, Builder.terminate, Block.terminate] using this
  · rw [hids]; exact h.distinct
  · rw [hids]; exact h.bounded
  · rw [hids]; exact h.first
  · intro B hB
    rcases Builder.mem_blocks.mp hB with hB | rfl
    · exact h.code B (hold B hB)
    · exact h.code b.block hcur
  · intro B hB u hu
    rcases Builder.mem_blocks.mp hB with hB | rfl
    · exact h.terms B (hold B hB) u hu
    · rcases hterm u hu with hu | rfl
      · exact h.terms b.block hcur u hu
      · have hc : Ctx.mk c.types (b.block.ends entry) = c := by rw [← h.avail]
        rw [← hc] at ht
        exact ht
  · intro B hB u hu id hid
    rw [hids]
    rcases Builder.mem_blocks.mp hB with hB | rfl
    · exact h.edges B (hold B hB) u hu id hid
    · rcases hterm u hu with hu | rfl
      · exact h.edges b.block hcur u hu id hid
      · have := he id hid
        rw [h.avail] at this
        exact this

/-- The order of the blocks still to be started does not matter. -/
theorem perm {pending' : List BlockId} (hp : pending.Perm pending') :
    Certified P declared b c entry pending' :=
  { h with
    distinct := (hp.append_left _).nodup_iff.mp h.distinct
    bounded := fun id hid => h.bounded id ((hp.append_left _).mem_iff.mpr hid)
    edges := fun B hB t ht id hid =>
      have he := h.edges B hB t ht id hid
      ⟨(hp.append_left _).mem_iff.mp he.1, he.2⟩ }

end

/-- A reserved block is started, with what the certificate has it start with. -/
theorem startBlock {id : BlockId} (h : Certified P declared b c entry (id :: pending))
    (label : String) :
    Certified P declared (b.startBlock id label) ⟨c.types, entry id⟩ entry pending := by
  have hblocks : (b.startBlock id label).blocks = b.blocks ++ [⟨id, some label, [], none⟩] := rfl
  have hids : (b.startBlock id label).blocks.map (·.id) ++ pending =
      b.blocks.map (·.id) ++ id :: pending := by
    simp [hblocks]
  constructor
  case next => exact h.next
  case params => exact h.params
  case numbering =>
    rw [hblocks, List.flatMap_append, results_append]
    show regsFrom 0 b.nextReg = regsFrom 0 b.params.length ++ _
    simpa using h.numbering
  case distinct => rw [hids]; exact h.distinct
  case bounded => rw [hids]; exact h.bounded
  case first =>
    rw [hblocks, List.map_append, List.head?_append, h.first]
    rfl
  case start => exact h.start
  case avail => simp [Builder.startBlock, Block.ends]
  case code =>
    intro B hB
    rw [hblocks] at hB
    rcases List.mem_append.mp hB with hB | hB
    · exact h.code B hB
    · rw [List.mem_singleton.mp hB]
      trivial
  case terms =>
    intro B hB t ht
    rw [hblocks] at hB
    rcases List.mem_append.mp hB with hB | hB
    · exact h.terms B hB t ht
    · rw [List.mem_singleton.mp hB] at ht
      simp at ht
  case edges =>
    intro B hB t ht i hi
    rw [hblocks] at hB
    rcases List.mem_append.mp hB with hB | hB
    · rw [hids]
      exact h.edges B hB t ht i hi
    · rw [List.mem_singleton.mp hB] at ht
      simp at ht

end Certified

/-- A function every part of which is typed, with types for all its registers. -/
structure Func.WellTyped (P : Policy) (declared : String → List Ty → Ty → Prop) (Γ : Reg → Ty)
    (f : Func) : Prop where
  params : ∀ p ∈ f.params, Γ p.1 = p.2
  instrs : ∀ i ∈ f.instrs, i.op.Typed P declared (fun r ty => Γ r = ty) (i.result.map Γ)
  terms : ∀ b ∈ f.blocks, ∀ t, b.terminator = some t → t.Typed P f.ret fun r ty => Γ r = ty

theorem Func.WellTyped.declare {declared declared' : String → List Ty → Ty → Prop} {Γ : Reg → Ty}
    {f : Func} (hd : ∀ f ps r, declared f ps r → declared' f ps r) (h : f.WellTyped P declared Γ) :
    f.WellTyped P declared' Γ :=
  { h with instrs := fun i hi => (h.instrs i hi).mono hd fun _ _ => id }

section Finish

variable {P : Policy} {declared : String → List Ty → Ty → Prop} {b : Builder} {c : Ctx}
  {entry : BlockId → List Reg} {B : Block}

theorem Builder.finish_blocks (b : Builder) :
    b.finish.blocks = b.blocks.map (·.terminate (fallback b.ret)) := rfl

theorem Builder.finish_instrs (b : Builder) : b.finish.instrs = b.blocks.flatMap Block.instrs := by
  simp [Func.instrs, finish_blocks, Block.terminate, List.flatMap_map]

/-- A terminator of a finished function is one that was put there, or the one that closes blocks
that were left open. -/
theorem Builder.finish_terminator {t : Terminator}
    (ht : (B.terminate (fallback b.ret)).terminator = some t) :
    B.terminator = some t ∨ t = fallback b.ret := by
  cases hB : B.terminator <;> simp_all [Block.terminate, eq_comm]

theorem Checked.of_getElem? {types : List Ty} {avail : List Reg} {code : List Instr} {k : Nat}
    {i : Instr} (h : Checked P declared types avail code) (hi : code[k]? = some i) :
    ∃ t, i.op.Typed P declared (Ctx.mk types (avail ++ results (code.take k))).Has t ∧
      t.map some = i.result.map fun r => types[r.index]? := by
  induction code generalizing avail k with
  | nil => simp at hi
  | cons j js ih =>
    cases k with
    | zero =>
      obtain rfl : j = i := by simpa using hi
      simpa using h.1
    | succ k =>
      have := ih h.2 (by simpa using hi)
      have heq : avail ++ results ((j :: js).take (k + 1)) =
          avail ++ j.result.toList ++ results (js.take k) := by
        cases hr : j.result <;> simp [results, hr]
      rwa [heq]

/-- Along every way to a block, what the certificate has it start with has been assigned. -/
theorem Certified.entry_of_path (h : Certified P declared b c entry []) {p : List Block}
    (hp : b.finish.Path p B) :
    ∀ r ∈ entry B.id, r ∈ b.params.map Prod.fst ∨ r ∈ results (p.flatMap Block.instrs) := by
  induction hp with
  | @entry B hB =>
    intro r hr
    have hid : B.id = ⟨0⟩ := by
      have := h.first
      simp only [Builder.finish_blocks, List.head?_map, Option.map_eq_some_iff] at hB this
      obtain ⟨B', hB', rfl⟩ := hB
      obtain ⟨B'', hB'', hid⟩ := this
      rw [hB'] at hB''
      obtain rfl : B' = B'' := by simpa using hB''
      exact hid
    rw [hid] at hr
    exact .inl (h.start hr)
  | @step p B C t hp ht hC htarget ih =>
    intro r hr
    obtain ⟨B', hB', rfl⟩ : ∃ B' ∈ b.blocks, B'.terminate (Builder.fallback b.ret) = B := by
      have hB : B ∈ b.finish.blocks := by
        cases hp with
        | entry hB => exact List.mem_of_head? hB
        | step _ _ hB _ => exact hB
      simpa [Builder.finish_blocks] using hB
    rcases Builder.finish_terminator ht with ht | rfl
    · have hsub := (h.edges B' hB' t ht _ htarget).2 hr
      rcases List.mem_append.mp hsub with hr | hr
      · rcases ih r hr with hr | hr
        · exact .inl hr
        · exact .inr (by simp [hr])
      · refine .inr ?_
        rw [List.flatMap_append, results_append]
        exact List.mem_append_right _ (by simpa [Block.terminate] using hr)
    · simp only [Builder.fallback] at htarget
      split at htarget <;> simp [Terminator.targets] at htarget

/-- Every register that has a type is a parameter or the value of an instruction. -/
theorem Certified.param_or_result {pending : List BlockId}
    (h : Certified P declared b c entry pending) {r : Reg} {ty : Ty}
    (hr : c.types[r.index]? = some ty) :
    r ∈ b.params.map Prod.fst ∨ r ∈ results (b.blocks.flatMap Block.instrs) := by
  have hlt : r.index < b.nextReg := by
    rw [← h.next]
    exact (List.getElem?_eq_some_iff.mp hr).1
  have hmem : r ∈ regsFrom 0 b.nextReg := mem_regsFrom.mpr ⟨Nat.zero_le _, by omega⟩
  rw [h.numbering] at hmem
  rw [h.params_fst]
  exact List.mem_append.mp hmem

/-- What a place in a block has to offer has been assigned on every way there. -/
theorem Certified.assigned (h : Certified P declared b c entry []) {k : Nat} {r : Reg} {ty : Ty}
    (hr : (Ctx.mk c.types (entry B.id ++ results (B.instrs.take k))).Has r ty) :
    r ∈ b.finish.params.map Prod.fst ∨ r ∈ results b.finish.instrs ∧
      ∀ p, b.finish.Path p (B.terminate (Builder.fallback b.ret)) →
        r ∈ results (p.flatMap Block.instrs ++ B.instrs.take k) := by
  by_cases hparam : r ∈ b.params.map Prod.fst
  · exact .inl hparam
  refine .inr ⟨?_, fun p hp => ?_⟩
  · rw [Builder.finish_instrs]
    exact (h.param_or_result hr.2).resolve_left hparam
  · rw [results_append]
    rcases List.mem_append.mp hr.1 with hr | hr
    · exact List.mem_append_left _ ((h.entry_of_path hp r hr).resolve_left hparam)
    · exact List.mem_append_right _ hr

theorem Builder.fallback_targets (ret : Ty) : (fallback ret).targets = [] := by
  unfold fallback
  split <;> rfl

theorem Builder.fallback_uses (ret : Ty) : (fallback ret).uses = [] := by
  unfold fallback
  split <;> rfl

theorem Certified.wellFormed (h : Certified P declared b c entry []) : b.finish.WellFormed := by
  have hids : b.finish.blocks.map (·.id) = b.blocks.map (·.id) := by
    simp [Builder.finish_blocks, Block.terminate]
  have hmem : ∀ B ∈ b.finish.blocks, ∃ B' ∈ b.blocks,
      B'.terminate (Builder.fallback b.ret) = B := by
    simp [Builder.finish_blocks]
  constructor
  case entry => rw [hids]; exact h.first
  case distinct => rw [hids]; simpa using h.distinct
  case terminated =>
    intro B hB
    obtain ⟨B', _, rfl⟩ := hmem B hB
    rfl
  case targets =>
    intro B hB t ht id hid
    obtain ⟨B', hB', rfl⟩ := hmem B hB
    rcases Builder.finish_terminator ht with ht | rfl
    · have := (h.edges B' hB' t ht id hid).1
      rw [List.append_nil, ← hids] at this
      simpa using this
    · simp [Builder.fallback_targets] at hid
  case params => exact h.params_fst
  case numbering =>
    have hlen := congrArg List.length h.numbering
    simp only [List.length_append, length_regsFrom] at hlen
    have := h.numbering
    rw [hlen, ← regsFrom_append, Nat.zero_add] at this
    rw [Builder.finish_instrs]
    exact (List.append_cancel_left this).symm
  case defined =>
    intro B hB k r hr
    obtain ⟨B', hB', rfl⟩ := hmem B hB
    rcases hr with ⟨i, hi, hr⟩ | ⟨rfl, t, ht, hr⟩
    · obtain ⟨_, hop, _⟩ := (h.code B' hB').of_getElem? hi
      obtain ⟨ty, hty⟩ := hop.uses r hr
      exact h.assigned hty
    · rcases Builder.finish_terminator ht with ht | rfl
      · obtain ⟨ty, hty⟩ := (h.terms B' hB' t ht).uses r hr
        rw [Block.ends, ← List.take_length (l := B'.instrs)] at hty
        exact h.assigned hty
      · simp [Builder.fallback_uses] at hr

/-- The types of a certificate are types for the registers of the finished function. -/
theorem Certified.wellTyped {pending : List BlockId} (h : Certified P declared b c entry pending) :
    b.finish.WellTyped P declared fun r => c.types.getD r.index .void := by
  have hmem : ∀ B ∈ b.finish.blocks, ∃ B' ∈ b.blocks,
      B'.terminate (Builder.fallback b.ret) = B := by
    simp [Builder.finish_blocks]
  have hhas : ∀ avail r ty, (Ctx.mk c.types avail).Has r ty → c.types.getD r.index .void = ty := by
    rintro avail r ty ⟨_, hr⟩
    simp [List.getD_eq_getElem?_getD, hr]
  constructor
  case params =>
    intro p hp
    have hp' : p ∈ numbered (c.types.take b.params.length) := by rw [← h.params]; exact hp
    obtain ⟨i, hi, rfl⟩ := List.mem_mapIdx.mp hp'
    have hlt : i < c.types.length := Nat.lt_of_lt_of_le hi (List.length_take_le' _ _)
    simp [List.getD_eq_getElem?_getD, hlt]
  case instrs =>
    intro i hi
    rw [Builder.finish_instrs] at hi
    obtain ⟨B, hB, hi⟩ := List.mem_flatMap.mp hi
    obtain ⟨k, hk⟩ := List.mem_iff_getElem?.mp hi
    obtain ⟨t, hop, hres⟩ := (h.code B hB).of_getElem? hk
    have ht : t = i.result.map fun r => c.types.getD r.index .void := by
      cases hr : i.result <;> cases t <;> simp_all [List.getD_eq_getElem?_getD]
      rw [← hres]; rfl
    rw [← ht]
    exact hop.mono (fun _ _ _ => id) (hhas _)
  case terms =>
    intro B hB t ht
    obtain ⟨B', hB', rfl⟩ := hmem B hB
    rcases Builder.finish_terminator ht with ht | rfl
    · exact (h.terms B' hB' t ht).mono (hhas _)
    · unfold Builder.fallback
      split
      · rename_i hret
        exact .bare (by rw [show b.finish.ret = .void from hret]; exact P.void)
      · exact .unreachable

end Finish

end Frontend.Ir
