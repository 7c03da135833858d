/-
# The index does not depend on the order of submission

Sessions deliver blocks in any order. When blocks with the same hash are the
same block, the block held under a hash is the one block of the list with that
hash, whatever its position (`firstWithHash_perm`); the epoch map follows the
block map (`Inv.ext`); and how many calls fail, and how, is counted by the
blocks alone (`processNewBlocks_counts`). So a list and any permutation of it
reach the same state with the same results up to order
(`processNewBlocks_perm`).
-/
import WitnetCore.BlocksManager.History

namespace WitnetCore
namespace BlocksManager

variable {ε : Type} {H : Hashing ε}

/-- With no two blocks of `bs` sharing a hash, the first block of hash `h` is
the block of `bs` with hash `h`. -/
theorem firstWithHash_eq_some {bs : List Block} {h : Hash} {b : Block}
    (hu : ∀ b₁ ∈ bs, ∀ b₂ ∈ bs, ∀ h, H.hash? b₁ = some h → H.hash? b₂ = some h → b₁ = b₂) :
    firstWithHash H bs h = some b ↔ b ∈ bs ∧ H.hash? b = some h := by
  refine ⟨fun hf => ⟨List.mem_of_find?_eq_some hf, by simpa using List.find?_some hf⟩,
    fun ⟨hb, hh⟩ => ?_⟩
  have : (firstWithHash H bs h).isSome := List.find?_isSome.mpr ⟨b, hb, by simpa using hh⟩
  obtain ⟨b', hf⟩ := Option.isSome_iff_exists.mp this
  rw [hf, hu b' (List.mem_of_find?_eq_some hf) b hb h (by simpa using List.find?_some hf) hh]

theorem firstWithHash_perm {bs bs' : List Block} (hp : bs.Perm bs')
    (hu : ∀ b₁ ∈ bs, ∀ b₂ ∈ bs, ∀ h, H.hash? b₁ = some h → H.hash? b₂ = some h → b₁ = b₂)
    (h : Hash) : firstWithHash H bs h = firstWithHash H bs' h := by
  have hu' : ∀ b₁ ∈ bs', ∀ b₂ ∈ bs', ∀ h, H.hash? b₁ = some h → H.hash? b₂ = some h → b₁ = b₂ :=
    fun b₁ h₁ b₂ h₂ => hu b₁ (hp.mem_iff.mpr h₁) b₂ (hp.mem_iff.mpr h₂)
  refine Option.ext fun b => ?_
  simp only [Option.mem_def, firstWithHash_eq_some hu, firstWithHash_eq_some hu', hp.mem_iff]

/-- How the calls of a run end: as many storage errors as blocks that cannot
be serialised, and every call a storage error, a `BlockAlreadyExists` or an
`Ok`. -/
theorem processNewBlocks_counts : ∀ (s : BlocksManager) (bs : List Block),
    (s.processNewBlocks H bs).1.countP (· matches .error (.storageError _)) =
      bs.countP (fun b => (H.hash? b).isNone) ∧
    (s.processNewBlocks H bs).1.countP (· matches .error .blockAlreadyExists) +
      (s.processNewBlocks H bs).1.countP (· matches .error (.storageError _)) +
      (okHashes (s.processNewBlocks H bs).1).length = bs.length
  | _, [] => by simp [processNewBlocks, okHashes]
  | s, b :: bs => by
    obtain ⟨ih1, ih2⟩ := processNewBlocks_counts (s.processNewBlock H b).2 bs
    simp only [processNewBlocks, List.countP_cons, List.length_cons]
    rcases processNewBlock_cases (H := H) s b with ⟨e, he, hs⟩ | ⟨_, hh, _, hs⟩ | ⟨_, hh, _, hs⟩ <;>
      rw [hs] at ih1 ih2 ⊢ <;> dsimp only at ih1 ih2
    · simp [ih1, Hashing.hash?_of_error he]; omega
    · simp [ih1, hh]; omega
    · simp [ih1, hh]; omega

/-- **Order does not matter.** If blocks with the same hash are equal, a list
and any permutation of it, each submitted from `BlocksManager::default()`,
reach the same state; each returns every hash of its blocks as `Ok` exactly
once, the same hashes; and they have as many `BlockAlreadyExists` and as many
storage errors. -/
theorem processNewBlocks_perm {bs bs' : List Block} (hp : bs.Perm bs')
    (hu : ∀ b₁ ∈ bs, ∀ b₂ ∈ bs, ∀ h, H.hash? b₁ = some h → H.hash? b₂ = some h → b₁ = b₂) :
    let r := (default : BlocksManager).processNewBlocks H bs
    let r' := (default : BlocksManager).processNewBlocks H bs'
    r.2 = r'.2 ∧
    (okHashes r.1).Nodup ∧ (okHashes r.1).Perm (okHashes r'.1) ∧
    (∀ h, h ∈ okHashes r.1 ↔ ∃ b ∈ bs, H.hash? b = some h) ∧
    r.1.countP (· matches .error .blockAlreadyExists) =
      r'.1.countP (· matches .error .blockAlreadyExists) ∧
    r.1.countP (· matches .error (.storageError _)) =
      r'.1.countP (· matches .error (.storageError _)) := by
  intro r r'
  have hr := (refines_default (H := H)).processNewBlocks bs
  have hr' := (refines_default (H := H)).processNewBlocks bs'
  have hs : r.2 = r'.2 := (inv_default.processNewBlocks bs).ext (inv_default.processNewBlocks bs')
    (Finmap.ext_lookup fun h => by rw [hr.1 h, hr'.1 h]; simpa using firstWithHash_perm hp hu h)
  have hn := (processNewBlocks_okHashes (H := H) default bs).1
  have hperm : (okHashes r.1).Perm (okHashes r'.1) :=
    (List.perm_ext_iff_of_nodup hn (processNewBlocks_okHashes (H := H) default bs').1).mpr
      fun h => by rw [mem_okHashes_iff, mem_okHashes_iff, hs]
  obtain ⟨c1, c2⟩ := processNewBlocks_counts (H := H) default bs
  obtain ⟨c1', c2'⟩ := processNewBlocks_counts (H := H) default bs'
  have hse : r.1.countP (· matches .error (.storageError _)) =
      r'.1.countP (· matches .error (.storageError _)) := by
    rw [c1, c1', hp.countP_eq]
  refine ⟨hs, hn, hperm, fun h => by rw [mem_okHashes_iff, hr.1.mem_iff, List.nil_append], ?_, hse⟩
  have := hperm.length_eq
  have := hp.length_eq
  simp only [r, r'] at *
  omega

theorem processNewBlocks_perm_fixture :
    [buildHardcodedBlock 2 99999, buildHardcodedBlock 1 10000, buildHardcodedBlock 2 99999].Perm
      [buildHardcodedBlock 1 10000, buildHardcodedBlock 2 99999, buildHardcodedBlock 2 99999] ∧
    (∀ b₁ ∈ [buildHardcodedBlock 2 99999, buildHardcodedBlock 1 10000, buildHardcodedBlock 2 99999],
      ∀ b₂ ∈ [buildHardcodedBlock 2 99999, buildHardcodedBlock 1 10000, buildHardcodedBlock 2 99999],
      ∀ h, testHashing.hash? b₁ = some h → testHashing.hash? b₂ = some h → b₁ = b₂) ∧
    ((default : BlocksManager).processNewBlocks testHashing
        [buildHardcodedBlock 2 99999, buildHardcodedBlock 1 10000, buildHardcodedBlock 2 99999]).2 =
      ((default : BlocksManager).processNewBlocks testHashing
        [buildHardcodedBlock 1 10000, buildHardcodedBlock 2 99999, buildHardcodedBlock 2 99999]).2 := by
  refine ⟨.swap _ _ _, ?hu, (processNewBlocks_perm (.swap _ _ _) ?hu).1⟩
  intro b₁ h₁ b₂ h₂ h e₁ e₂
  simp only [List.mem_cons, List.mem_singleton, List.not_mem_nil, or_false] at h₁ h₂
  rcases h₁ with rfl | rfl | rfl <;> rcases h₂ with rfl | rfl | rfl <;>
    first | rfl | exact absurd (e₁.trans e₂.symm) (by decide)

end BlocksManager
end WitnetCore
