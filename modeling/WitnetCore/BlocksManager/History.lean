/-
# First submission wins

What the block index is for: it remembers the blocks submitted to it. Under a
hash it holds the first submitted block that serialises to that hash
(`firstWithHash`), and a call of `process_new_block` answers from the blocks
submitted before it (`expectedResult`): a storage error when the block cannot
be serialised, `BlockAlreadyExists` when an earlier block had its hash, its
hash otherwise. These two definitions follow the spec's words; `Refines` ties
them to the code: the state holds, under each hash, the history's first block
of that hash. One call keeps `Refines` and answers as the spec says
(`Refines.processNewBlock`), and so does every run.

From `BlocksManager::default()`, then, every call answers as the spec says,
`try_to_get_block` returns the first block of each hash, the block map holds
as many blocks as there were `Ok` results (`processNewBlocks_firstWins`), and
`discard_existing_inv_vectors` keeps exactly the vectors, of whatever kind,
that wrap no hash a call returned (`discardExistingInvVectors_processNewBlocks`).

Key definitions: `BlocksManager.firstWithHash`, `BlocksManager.expectedResult`,
`BlocksManager.Refines`, `BlocksManager.okHashes`.
-/
import WitnetCore.BlocksManager.Index

namespace WitnetCore
namespace BlocksManager

variable {ε : Type} (H : Hashing ε)

/-- By the spec: the block held under `h` after the blocks `bs` were submitted,
the first of them that serialises and hashes to `h`. -/
def firstWithHash (bs : List Block) (h : Hash) : Option Block :=
  bs.find? fun b => H.hash? b == some h

/-- By the spec: what `process_new_block b` returns after the blocks `earlier`. -/
def expectedResult (earlier : List Block) (b : Block) : Except (BlocksManagerError ε) Hash :=
  match H.toBytes b with
  | .error e => .error (.storageError e)
  | .ok bytes =>
    if ∃ b' ∈ earlier, H.hash? b' = some (H.calculateSha256 bytes) then .error .blockAlreadyExists
    else .ok (H.calculateSha256 bytes)

/-- The hashes a run returned as `Ok`, in order. -/
def okHashes (rs : List (Except (BlocksManagerError ε) Hash)) : List Hash :=
  rs.filterMap Except.toOption

/-- The state holds, under every hash, the first block of the history `pre`
with that hash. -/
def Refines (s : BlocksManager) (pre : List Block) : Prop :=
  ∀ h, s.blocks.lookup h = firstWithHash H pre h

variable {H} {s : BlocksManager} {pre : List Block} {b : Block} {h : Hash}

@[simp] theorem okHashes_cons_ok {rs : List (Except (BlocksManagerError ε) Hash)} :
    okHashes (.ok h :: rs) = h :: okHashes rs := rfl

@[simp] theorem okHashes_cons_error {err : BlocksManagerError ε} {rs : List (Except _ Hash)} :
    okHashes (.error err :: rs) = okHashes rs := rfl

theorem firstWithHash_concat :
    firstWithHash H (pre ++ [b]) h = (firstWithHash H pre h).or
      (if H.hash? b = some h then some b else none) := by
  simp only [firstWithHash, List.find?_append, List.find?_singleton, beq_iff_eq]

theorem expectedResult_of_hash (hh : H.hash? b = some h) :
    expectedResult H pre b =
      if ∃ b' ∈ pre, H.hash? b' = some h then .error .blockAlreadyExists else .ok h := by
  cases hb : H.toBytes b with
  | error e => simp [Hashing.hash?_of_error hb] at hh
  | ok bytes =>
    rw [Hashing.hash?_of_ok hb, Option.some.injEq] at hh
    subst hh
    simp [expectedResult, hb]

theorem refines_default : Refines H default [] := fun _ => rfl

theorem Refines.mem_iff (hr : Refines H s pre) : h ∈ s.blocks ↔ ∃ b ∈ pre, H.hash? b = some h := by
  rw [← Finmap.lookup_isSome, hr h, firstWithHash, List.find?_isSome]
  simp

/-! ### One call, then a run -/

/-- **One call answers as the spec says and keeps the refinement.** -/
theorem Refines.processNewBlock (hr : Refines H s pre) (b : Block) :
    (s.processNewBlock H b).1 = expectedResult H pre b ∧
      Refines H (s.processNewBlock H b).2 (pre ++ [b]) := by
  rcases processNewBlock_cases (H := H) s b with ⟨e, he, hs⟩ | ⟨h₀, hh, hm, hs⟩ | ⟨h₀, hh, hm, hs⟩ <;>
    rw [hs]
  · refine ⟨by simp [expectedResult, he], fun h => ?_⟩
    simp [hr h, firstWithHash_concat, Hashing.hash?_of_error he]
  · refine ⟨((expectedResult_of_hash hh).trans (if_pos (hr.mem_iff.mp hm))).symm, fun h => ?_⟩
    rw [hr h, firstWithHash_concat]
    by_cases e : h = h₀
    · subst e
      obtain ⟨b', hb'⟩ := Finmap.mem_iff.mp hm
      rw [← hr, hb']; rfl
    · simp [hh, Ne.symm e]
  · refine ⟨((expectedResult_of_hash hh).trans (if_neg (hr.mem_iff.not.mp hm))).symm, fun h => ?_⟩
    rw [firstWithHash_concat, ← hr h]
    by_cases e : h = h₀
    · subst e
      simp [Finmap.lookup_eq_none.mpr hm, hh]
    · simp [Finmap.lookup_insert_of_ne _ e, hh, Ne.symm e]

theorem processNewBlocks_length : ∀ (s : BlocksManager) (bs : List Block),
    (s.processNewBlocks H bs).1.length = bs.length
  | _, [] => rfl
  | _, _ :: bs => congrArg Nat.succ (processNewBlocks_length _ bs)

/-- A run keeps the refinement, and call `i` answers from the history and the
blocks submitted before it. -/
theorem Refines.processNewBlocks : ∀ {s : BlocksManager} {pre : List Block} (bs : List Block),
    Refines H s pre → Refines H (s.processNewBlocks H bs).2 (pre ++ bs) ∧
      ∀ i (hi : i < bs.length),
        (s.processNewBlocks H bs).1[i]? = some (expectedResult H (pre ++ bs.take i) bs[i])
  | _, _, [], hr => ⟨by simpa using hr, fun _ hi => absurd hi (Nat.not_lt_zero _)⟩
  | _, _, b :: bs, hr => by
    obtain ⟨h1, h2⟩ := hr.processNewBlock b
    obtain ⟨ih1, ih2⟩ := Refines.processNewBlocks bs h2
    refine ⟨by simpa using ih1, fun i hi => ?_⟩
    cases i with
    | zero => simp [BlocksManager.processNewBlocks, h1]
    | succ i => simpa [BlocksManager.processNewBlocks] using ih2 i (by simpa using hi)

/-- The hashes a run returns as `Ok` are distinct, new to the state it started
from, and are what it adds to the block map. -/
theorem processNewBlocks_okHashes : ∀ (s : BlocksManager) (bs : List Block),
    (okHashes (s.processNewBlocks H bs).1).Nodup ∧
    (∀ h ∈ okHashes (s.processNewBlocks H bs).1, h ∉ s.blocks) ∧
    ∀ h, h ∈ (s.processNewBlocks H bs).2.blocks ↔
      h ∈ s.blocks ∨ h ∈ okHashes (s.processNewBlocks H bs).1
  | _, [] => by simp [processNewBlocks, okHashes]
  | s, b :: bs => by
    obtain ⟨ih1, ih2, ih3⟩ := processNewBlocks_okHashes (s.processNewBlock H b).2 bs
    simp only [processNewBlocks]
    rcases processNewBlock_error_or_ok (H := H) s b with ⟨_, hs⟩ | ⟨h₀, -, hm, hs⟩ <;>
      rw [hs] at ih1 ih2 ih3 ⊢
    · exact ⟨ih1, ih2, ih3⟩
    · have hin : ∀ {x}, x ∈ s.blocks → x ∈ (s.insertBlock h₀ b).blocks := fun hx =>
        Finmap.mem_insert.mpr (.inr hx)
      refine ⟨List.nodup_cons.mpr ⟨fun h => ih2 _ h (by simp), ih1⟩, ?_, fun h => ?_⟩
      · simp only [okHashes_cons_ok, List.mem_cons, forall_eq_or_imp]
        exact ⟨hm, fun x hx hs => ih2 x hx (hin hs)⟩
      · rw [ih3, insertBlock_blocks, Finmap.mem_insert, okHashes_cons_ok, List.mem_cons, or_assoc,
          or_left_comm]

/-- From the default state, the hashes returned as `Ok` are the keys of the block map. -/
theorem mem_okHashes_iff (bs : List Block) (h : Hash) :
    h ∈ okHashes ((default : BlocksManager).processNewBlocks H bs).1 ↔
      h ∈ ((default : BlocksManager).processNewBlocks H bs).2.blocks := by
  simp [(processNewBlocks_okHashes default bs).2.2 h, Finmap.not_mem_empty]

theorem processNewBlocks_card (s : BlocksManager) (bs : List Block) :
    (s.processNewBlocks H bs).2.blocks.keys.card =
      s.blocks.keys.card + (okHashes (s.processNewBlocks H bs).1).length := by
  obtain ⟨h1, h2, h3⟩ := processNewBlocks_okHashes (H := H) s bs
  have : (s.processNewBlocks H bs).2.blocks.keys =
      s.blocks.keys ∪ (okHashes (s.processNewBlocks H bs).1).toFinset :=
    Finset.ext fun h => by simp [Finmap.mem_keys, h3]
  rw [this, Finset.card_union_of_disjoint, List.toFinset_card_of_nodup h1]
  exact Finset.disjoint_left.mpr fun x hx hx' =>
    h2 x (List.mem_toFinset.mp hx') (Finmap.mem_keys.mp hx)

/-! ### From the default state -/

/-- **First submission wins.** From `BlocksManager::default()`, call `i`
returns a storage error iff block `i` cannot be serialised, otherwise
`BlockAlreadyExists` iff an earlier block serialised to its hash, otherwise
`Ok` of its hash. Afterwards `try_to_get_block h` returns the first submitted
block with hash `h`, or `BlockDoesNotExist`, and the block map holds as many
blocks as there were `Ok` results. -/
theorem processNewBlocks_firstWins (bs : List Block) :
    let r := (default : BlocksManager).processNewBlocks H bs
    r.1.length = bs.length ∧
    (∀ i (hi : i < bs.length), r.1[i]? = some (expectedResult H (bs.take i) bs[i])) ∧
    (∀ h, (r.2.tryToGetBlock (ε := ε) h).1 =
      match firstWithHash H bs h with
      | some b => .ok b
      | none => .error .blockDoesNotExist) ∧
    r.2.blocks.keys.card = (okHashes r.1).length := by
  have hr := refines_default.processNewBlocks (H := H) bs
  refine ⟨processNewBlocks_length _ _, fun i hi => by simpa using hr.2 i hi, fun h => ?_,
    by simpa using processNewBlocks_card (H := H) default bs⟩
  simp only [tryToGetBlock, hr.1 h, List.nil_append]
  cases firstWithHash H bs h <;> rfl

/-- `add_same_block_twice`: the first of two equal blocks is accepted, the
second rejected, and only one is stored. -/
example : ((default : BlocksManager).processNewBlocks testHashing
      [buildHardcodedBlock 2 99999, buildHardcodedBlock 2 99999]).1.map Except.isOk = [true, false] ∧
    ((default : BlocksManager).processNewBlocks testHashing
      [buildHardcodedBlock 2 99999, buildHardcodedBlock 2 99999]).2.blocks.keys.card = 1 := by
  decide

/-- Reconciling against a state that then gains `h` drops the vectors that wrap `h`. -/
theorem discardExistingInvVectors_insertBlock (v : List InvVector) :
    ((s.insertBlock h b).discardExistingInvVectors (ε := ε) v).1 =
      .ok ((v.filter fun iv => (s.blocks.lookup iv.hash).isNone).filter fun iv => ¬iv.Wraps h) := by
  simp only [discardExistingInvVectors, List.filter_filter, insertBlock_blocks,
    InvVector.wraps_iff_hash_eq]
  congr 2
  funext iv
  by_cases e : iv.hash = h
  · have : (s.blocks.insert h b).lookup iv.hash = some b := e ▸ Finmap.lookup_insert _
    simp [this, e]
  · simp [e, Finmap.lookup_insert_of_ne]

/-- After a run from the default state, a vector's hash is missing iff the
vector wraps no hash a call returned. -/
theorem filter_isNone_processNewBlocks (bs : List Block) (v : List InvVector) :
    (v.filter fun iv =>
      (((default : BlocksManager).processNewBlocks H bs).2.blocks.lookup iv.hash).isNone) =
      v.filter fun iv =>
        ¬∃ h ∈ okHashes ((default : BlocksManager).processNewBlocks H bs).1, iv.Wraps h := by
  refine List.filter_congr fun iv _ => ?_
  simp only [InvVector.wraps_iff_hash_eq, exists_eq_right', mem_okHashes_iff, ← Finmap.lookup_isSome]
  cases (((default : BlocksManager).processNewBlocks H bs).2.blocks.lookup iv.hash) <;> rfl

/-- **Reconciliation after any run.** From `BlocksManager::default()`,
`discard_existing_inv_vectors v` returns the vectors of `v`, in order and with
repeats, that wrap no hash a call returned as `Ok`, whatever their kind; one
more call that returns `Ok(h)` drops exactly the vectors that wrap `h`, and one
that fails changes nothing. -/
theorem discardExistingInvVectors_processNewBlocks (bs : List Block) (v : List InvVector) :
    let r := (default : BlocksManager).processNewBlocks H bs
    let w := v.filter fun iv => ¬∃ h ∈ okHashes r.1, iv.Wraps h
    r.2.discardExistingInvVectors (ε := ε) v = (.ok w, r.2) ∧
    ∀ b, (∀ h, (r.2.processNewBlock H b).1 = .ok h →
        ((r.2.processNewBlock H b).2.discardExistingInvVectors (ε := ε) v).1 =
          .ok (w.filter fun iv => ¬iv.Wraps h)) ∧
      (∀ err, (r.2.processNewBlock H b).1 = .error err →
        ((r.2.processNewBlock H b).2.discardExistingInvVectors (ε := ε) v).1 = .ok w) := by
  intro r w
  have hw : (v.filter fun iv => (r.2.blocks.lookup iv.hash).isNone) = w :=
    filter_isNone_processNewBlocks bs v
  refine ⟨by rw [← hw]; rfl, fun b => ⟨fun h hr => ?_, fun err hr => ?_⟩⟩
  · rw [(processNewBlock_of_ok hr).2.2, discardExistingInvVectors_insertBlock, hw]
  · rw [processNewBlock_snd_of_error hr, ← hw]; rfl

end BlocksManager
end WitnetCore
