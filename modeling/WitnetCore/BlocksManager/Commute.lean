/-
# Calls commute

Two calls of `process_new_block` whose blocks do not serialise to one hash
commute (`processNewBlock_comm`): each returns what it returns in the other
order, and the two orders leave the same state. A block submitted again
leaves the state it left the first time (`processNewBlock_twice`). So from
any state, not only the default one and with no invariant, two orders of the
same blocks, when blocks of one hash are one block, reach the same state and
return the same results, permuted (`processNewBlocks_perm_from`); and so the
actor may take the messages of its mailbox in any order, reads among them, and
reach the same state (`run_perm`).

Key theorems: `BlocksManager.processNewBlock_comm`,
`BlocksManager.processNewBlocks_perm_from`, `BlocksManager.run_perm`.
-/
import WitnetCore.BlocksManager.Actor

namespace WitnetCore
namespace BlocksManager

variable {ε : Type} {H : Hashing ε} {s : BlocksManager}

theorem mem_insertBlock_blocks {x h : Hash} {b : Block} :
    x ∈ (s.insertBlock h b).blocks ↔ x = h ∨ x ∈ s.blocks := by
  simp [Finmap.mem_insert]

/-- Inserting two blocks under different hashes commutes, whether or not they
claim one checkpoint. -/
theorem insertBlock_comm {h₁ h₂ : Hash} {b₁ b₂ : Block} (hne : h₁ ≠ h₂) :
    (s.insertBlock h₁ b₁).insertBlock h₂ b₂ = (s.insertBlock h₂ b₂).insertBlock h₁ b₁ := by
  refine BlocksManager.ext (Finmap.ext_lookup fun e => ?_) (Finmap.ext_lookup fun x => ?_)
  · simp only [lookup_insertBlock_epochToBlockHash]
    split_ifs <;> simp only [Option.getD_some, Finset.Insert.comm]
  · simp only [lookup_insertBlock_blocks]
    split_ifs with e₂ e₁ <;> first | rfl | exact absurd (e₁.symm.trans e₂) hne

/-- **Calls on different hashes commute.** From any state, two calls whose
blocks do not serialise to one hash return, in either order, what each
returns when it comes first, and leave the same state. -/
theorem processNewBlock_comm (s : BlocksManager) (b₁ b₂ : Block)
    (hne : ∀ h, H.hash? b₁ = some h → H.hash? b₂ ≠ some h) :
    ((s.processNewBlock H b₁).2.processNewBlock H b₂).1 = (s.processNewBlock H b₂).1 ∧
    ((s.processNewBlock H b₂).2.processNewBlock H b₁).1 = (s.processNewBlock H b₁).1 ∧
    ((s.processNewBlock H b₁).2.processNewBlock H b₂).2 =
      ((s.processNewBlock H b₂).2.processNewBlock H b₁).2 := by
  refine ⟨processNewBlock_fst_congr fun h h₂ => ?_, processNewBlock_fst_congr fun h h₁ => ?_, ?_⟩
  · rw [mem_processNewBlock_blocks, or_iff_left fun h₁ => hne h h₁ h₂]
  · rw [mem_processNewBlock_blocks, or_iff_left fun h₂ => hne h h₁ h₂]
  · simp only [processNewBlock_snd]
    cases h₁ : H.hash? b₁ with
    | none => cases H.hash? b₂ <;> rfl
    | some x =>
      cases h₂ : H.hash? b₂ with
      | none => rfl
      | some y =>
        have hxy : x ≠ y := fun e => hne x h₁ (e ▸ h₂)
        by_cases m₁ : x ∈ s.blocks <;> by_cases m₂ : y ∈ s.blocks <;>
          simp [m₁, m₂, mem_insertBlock_blocks, hxy, hxy.symm, insertBlock_comm hxy]

/-- **Submitting a block again changes nothing.** From any state, a second
call with the same block leaves the state the first call left, and returns
`BlockAlreadyExists` when the block serialises, its storage error otherwise. -/
theorem processNewBlock_twice (s : BlocksManager) (b : Block) :
    ((s.processNewBlock H b).2.processNewBlock H b).2 = (s.processNewBlock H b).2 ∧
    ((s.processNewBlock H b).2.processNewBlock H b).1 =
      match H.toBytes b with
      | .ok _ => .error .blockAlreadyExists
      | .error e => .error (.storageError e) := by
  rcases processNewBlock_cases (H := H) (s.processNewBlock H b).2 b with
    ⟨e, he, ht⟩ | ⟨h, hh, -, ht⟩ | ⟨h, hh, hm, ht⟩
  · simp [ht, he]
  · cases hb : H.toBytes b with
    | error e => simp [Hashing.hash?_of_error hb] at hh
    | ok _ => simp [ht]
  · exact absurd (mem_processNewBlock_blocks.mpr (.inr hh)) hm

/-- **Order does not matter, from any state.** If blocks of `bs` with the
same hash are equal, then from any state `bs` and any permutation of it reach
the same state, and their lists of results are permutations of each other. -/
theorem processNewBlocks_perm_from {bs bs' : List Block} (hp : bs.Perm bs')
    (hu : ∀ b₁ ∈ bs, ∀ b₂ ∈ bs, ∀ h, H.hash? b₁ = some h → H.hash? b₂ = some h → b₁ = b₂)
    (s : BlocksManager) :
    (s.processNewBlocks H bs).2 = (s.processNewBlocks H bs').2 ∧
    (s.processNewBlocks H bs).1.Perm (s.processNewBlocks H bs').1 := by
  induction hp generalizing s with
  | nil => exact ⟨rfl, .refl _⟩
  | cons b _ ih =>
    obtain ⟨h₁, h₂⟩ := ih (fun b₁ m₁ b₂ m₂ => hu b₁ (.tail _ m₁) b₂ (.tail _ m₂))
      (s.processNewBlock H b).2
    exact ⟨h₁, h₂.cons _⟩
  | swap x y l =>
    by_cases hxy : ∃ h, H.hash? y = some h ∧ H.hash? x = some h
    · obtain ⟨h, hy, hx⟩ := hxy
      obtain rfl := hu y (by simp) x (by simp) h hy hx
      exact ⟨rfl, .refl _⟩
    · obtain ⟨r₁, r₂, st⟩ := processNewBlock_comm (H := H) s y x
        fun h hy hx => hxy ⟨h, hy, hx⟩
      simp only [processNewBlocks, r₁, r₂, st, true_and]
      exact .swap _ _ _
  | trans p₁ _ ih₁ ih₂ =>
    obtain ⟨a₁, a₂⟩ := ih₁ hu s
    obtain ⟨c₁, c₂⟩ := ih₂ (fun b₁ m₁ b₂ m₂ => hu b₁ (p₁.mem_iff.mpr m₁) b₂ (p₁.mem_iff.mpr m₂)) s
    exact ⟨a₁.trans c₁, a₂.trans c₂⟩

/-! ### The actor's mailbox -/

/-- **The mailbox's order does not matter.** If the messages submit one block
per hash, then from any state any reordering of them, lookups and
reconciliations included, reaches the same state and accepts the same hashes,
in another order. -/
theorem run_perm {cs cs' : List Call} (hp : cs.Perm cs')
    (hu : ∀ b₁ ∈ submitted cs, ∀ b₂ ∈ submitted cs, ∀ h,
      H.hash? b₁ = some h → H.hash? b₂ = some h → b₁ = b₂)
    (s : BlocksManager) :
    (s.run H cs).2 = (s.run H cs').2 ∧
    (acceptedHashes (s.run H cs).1).Perm (acceptedHashes (s.run H cs').1) := by
  obtain ⟨a, e⟩ := run_eq_processNewBlocks (H := H) s cs
  obtain ⟨a', e'⟩ := run_eq_processNewBlocks (H := H) s cs'
  obtain ⟨h₁, h₂⟩ := processNewBlocks_perm_from (hp.filterMap _) hu s
  rw [a, a', e, e']
  exact ⟨h₁, h₂.filterMap _⟩

theorem run_perm_fixture :
    List.Perm
      ([.processNewBlock (buildHardcodedBlock 2 99999),
        .processNewBlock (buildHardcodedBlock 1 10000),
        .tryToGetBlock (.sha256 (Mathlib.Vector.replicate 32 1))] : List Call)
      [.processNewBlock (buildHardcodedBlock 1 10000),
        .processNewBlock (buildHardcodedBlock 2 99999),
        .tryToGetBlock (.sha256 (Mathlib.Vector.replicate 32 1))] ∧
    (∀ b₁ ∈ submitted [.processNewBlock (buildHardcodedBlock 2 99999),
        .processNewBlock (buildHardcodedBlock 1 10000),
        .tryToGetBlock (.sha256 (Mathlib.Vector.replicate 32 1))],
      ∀ b₂ ∈ submitted [.processNewBlock (buildHardcodedBlock 2 99999),
        .processNewBlock (buildHardcodedBlock 1 10000),
        .tryToGetBlock (.sha256 (Mathlib.Vector.replicate 32 1))],
      ∀ h, testHashing.hash? b₁ = some h → testHashing.hash? b₂ = some h → b₁ = b₂) ∧
    ((default : BlocksManager).run testHashing
      [.processNewBlock (buildHardcodedBlock 2 99999),
        .processNewBlock (buildHardcodedBlock 1 10000),
        .tryToGetBlock (.sha256 (Mathlib.Vector.replicate 32 1))]).2 =
    ((default : BlocksManager).run testHashing
      [.processNewBlock (buildHardcodedBlock 1 10000),
        .processNewBlock (buildHardcodedBlock 2 99999),
        .tryToGetBlock (.sha256 (Mathlib.Vector.replicate 32 1))]).2 := by
  refine ⟨.swap _ _ _, ?hu, (run_perm (.swap _ _ _) ?hu _).1⟩
  intro b₁ h₁ b₂ h₂ h e₁ e₂
  simp only [submitted, List.filterMap_cons, List.filterMap_nil, Call.block?, List.mem_cons,
    List.mem_singleton, List.not_mem_nil, or_false] at h₁ h₂
  rcases h₁ with rfl | rfl <;> rcases h₂ with rfl | rfl <;>
    first | rfl | exact absurd (e₁.trans e₂.symm) (by decide)

end BlocksManager
end WitnetCore
