/-
# The blocks manager

`BlocksManager` of `actors/blocks_manager/mod.rs`: a map from hash to block
and a map from epoch to the hashes of its blocks, and the three methods that
read and write them. `process_new_block` hashes the block (and fails with a
storage error if it cannot be serialised), rejects a hash it already holds,
and otherwise adds the hash to its epoch's set and the block to the map;
`try_to_get_block` and `discard_existing_inv_vectors` only read. Rust's
`HashMap` and `HashSet` are Mathlib's `Finmap` and `Finset`: finite, and equal
when they hold the same entries, as `PartialEq` on them says.

A method on `&mut self` returns its result and the state it leaves. What one
call of `process_new_block` can do is said once, in `processNewBlock_cases`;
everything later is derived from it.

Key definitions: `BlocksManager.processNewBlock`, `BlocksManager.processNewBlocks`.
Key theorems: `BlocksManager.processNewBlock_cases`,
`BlocksManager.processNewBlock_atomic`.
-/
import WitnetCore.Chain
import Mathlib.Data.Finmap

namespace WitnetCore

/-- The methods' results are `Except`s, and core decides no equality on them. -/
instance instDecidableEqExcept {ε α : Type} [DecidableEq ε] [DecidableEq α] :
    DecidableEq (Except ε α)
  | .error a, .error b => decidable_of_iff (a = b) ⟨congrArg _, Except.error.inj⟩
  | .ok a, .ok b => decidable_of_iff (a = b) ⟨congrArg _, Except.ok.inj⟩
  | .error _, .ok _ | .ok _, .error _ => isFalse fun h => Except.noConfusion h

/-- Possible errors when interacting with `BlocksManager`; `ε` is the storage
error `to_bytes` fails with. -/
inductive BlocksManagerError (ε : Type)
  | blockAlreadyExists
  | blockDoesNotExist
  | storageError (e : ε)
  deriving DecidableEq

/-- Modelled from the spec: `blocks_manager::messages` is not in this
repository; a reconciliation returns the missing vectors or an error. -/
abbrev InvVectorsResult (ε : Type) := Except (BlocksManagerError ε) (List InvVector)

/-- The block index of the `BlocksManager` actor. Its `chain_info` is left
out: none of the methods below reads it. -/
@[ext]
structure BlocksManager where
  epochToBlockHash : Finmap fun _ : Epoch => Finset Hash
  blocks : Finmap fun _ : Hash => Block
  deriving DecidableEq

/-- `BlocksManager::default()`: both maps empty. -/
instance : Inhabited BlocksManager := ⟨{ epochToBlockHash := ∅, blocks := ∅ }⟩

namespace BlocksManager

@[simp] theorem default_blocks : (default : BlocksManager).blocks = ∅ := rfl
@[simp] theorem default_epochToBlockHash : (default : BlocksManager).epochToBlockHash = ∅ := rfl

/-- The `else` branch of `process_new_block`: `hash` joins the set of the
block's checkpoint (created if absent), then `hash ↦ block` joins the map. -/
def insertBlock (self : BlocksManager) (hash : Hash) (block : Block) : BlocksManager :=
  let checkpoint := block.header.blockHeader.beacon.checkpoint
  { epochToBlockHash := self.epochToBlockHash.insert checkpoint
      (insert hash ((self.epochToBlockHash.lookup checkpoint).getD ∅))
    blocks := self.blocks.insert hash block }

variable {ε : Type} (H : Hashing ε)

def processNewBlock (self : BlocksManager) (block : Block) :
    Except (BlocksManagerError ε) Hash × BlocksManager :=
  match H.toBytes block with
  | .error e => (.error (.storageError e), self)
  | .ok bytes =>
    let hash := H.calculateSha256 bytes
    match self.blocks.lookup hash with
    | some _ => (.error .blockAlreadyExists, self)
    | none => (.ok hash, self.insertBlock hash block)

def tryToGetBlock (self : BlocksManager) (hash : Hash) :
    Except (BlocksManagerError ε) Block × BlocksManager :=
  ((self.blocks.lookup hash).elim (.error .blockDoesNotExist) .ok, self)

def discardExistingInvVectors (self : BlocksManager) (invVectors : List InvVector) :
    InvVectorsResult ε × BlocksManager :=
  (.ok (invVectors.filter fun invVector => (self.blocks.lookup invVector.hash).isNone), self)

/-- Blocks submitted one after another with `process_new_block`: the results in
order and the state reached. -/
def processNewBlocks : BlocksManager → List Block →
    List (Except (BlocksManagerError ε) Hash) × BlocksManager
  | self, [] => ([], self)
  | self, block :: blocks =>
    let r := self.processNewBlock H block
    let rs := r.2.processNewBlocks blocks
    (r.1 :: rs.1, rs.2)

/-! ### One call of `process_new_block` -/

variable {H} {s : BlocksManager} {b : Block} {h : Hash}

@[simp] theorem insertBlock_blocks : (s.insertBlock h b).blocks = s.blocks.insert h b := rfl

@[simp] theorem insertBlock_epochToBlockHash :
    (s.insertBlock h b).epochToBlockHash =
      s.epochToBlockHash.insert b.header.blockHeader.beacon.checkpoint
        (insert h ((s.epochToBlockHash.lookup b.header.blockHeader.beacon.checkpoint).getD ∅)) :=
  rfl

/-- **What one call can do.** It fails to serialise the block and changes
nothing; or finds the block's hash already held and changes nothing; or inserts
the block under its hash, which it did not hold. -/
theorem processNewBlock_cases (s : BlocksManager) (b : Block) :
    (∃ e, H.toBytes b = .error e ∧ s.processNewBlock H b = (.error (.storageError e), s)) ∨
    (∃ h, H.hash? b = some h ∧ h ∈ s.blocks ∧
      s.processNewBlock H b = (.error .blockAlreadyExists, s)) ∨
    (∃ h, H.hash? b = some h ∧ h ∉ s.blocks ∧
      s.processNewBlock H b = (.ok h, s.insertBlock h b)) := by
  unfold processNewBlock
  cases hb : H.toBytes b with
  | error e => exact .inl ⟨e, rfl, rfl⟩
  | ok bytes =>
    simp only
    cases hl : s.blocks.lookup (H.calculateSha256 bytes) with
    | some _ => exact .inr (.inl ⟨_, Hashing.hash?_of_ok hb, Finmap.mem_of_lookup_eq_some hl, rfl⟩)
    | none => exact .inr (.inr ⟨_, Hashing.hash?_of_ok hb, Finmap.lookup_eq_none.mp hl, rfl⟩)

/-- Coarser: a call fails and changes nothing, or returns `Ok(h)` having
inserted the block under its hash `h`, which the state did not hold. -/
theorem processNewBlock_error_or_ok (s : BlocksManager) (b : Block) :
    (∃ err, s.processNewBlock H b = (.error err, s)) ∨
    (∃ h, H.hash? b = some h ∧ h ∉ s.blocks ∧
      s.processNewBlock H b = (.ok h, s.insertBlock h b)) := by
  rcases processNewBlock_cases (H := H) s b with ⟨_, _, he⟩ | ⟨_, _, _, he⟩ | he
  · exact .inl ⟨_, he⟩
  · exact .inl ⟨_, he⟩
  · exact .inr he

theorem processNewBlock_snd_of_error {err : BlocksManagerError ε}
    (hr : (s.processNewBlock H b).1 = .error err) : (s.processNewBlock H b).2 = s := by
  rcases processNewBlock_error_or_ok (H := H) s b with ⟨_, he⟩ | ⟨_, _, _, he⟩ <;> simp_all

theorem processNewBlock_of_ok (hr : (s.processNewBlock H b).1 = .ok h) :
    H.hash? b = some h ∧ h ∉ s.blocks ∧ (s.processNewBlock H b).2 = s.insertBlock h b := by
  rcases processNewBlock_error_or_ok (H := H) s b with ⟨_, he⟩ | ⟨_, h1, h2, he⟩ <;>
    simp only [he, reduceCtorEq, Except.ok.injEq] at hr
  subst hr
  exact ⟨h1, h2, by rw [he]⟩

/-- After a call the block map holds what it held and the block's hash, if the
block serialises. -/
theorem mem_processNewBlock_blocks {x : Hash} :
    x ∈ (s.processNewBlock H b).2.blocks ↔ x ∈ s.blocks ∨ H.hash? b = some x := by
  rcases processNewBlock_cases (H := H) s b with ⟨e, he, hs⟩ | ⟨h, hh, hm, hs⟩ | ⟨h, hh, hm, hs⟩ <;>
    rw [hs]
  · simp [Hashing.hash?_of_error he]
  · simp only [hh, Option.some.injEq]
    exact ⟨.inl, fun hx => hx.elim id (· ▸ hm)⟩
  · simp [hh, Finmap.mem_insert, or_comm, eq_comm]

/-- The state a call leaves, by the block's hash and whether the state holds it. -/
theorem processNewBlock_snd (s : BlocksManager) (b : Block) :
    (s.processNewBlock H b).2 =
      match H.hash? b with
      | some h => if h ∈ s.blocks then s else s.insertBlock h b
      | none => s := by
  rcases processNewBlock_cases (H := H) s b with ⟨e, he, hs⟩ | ⟨h, hh, hm, hs⟩ | ⟨h, hh, hm, hs⟩
  · simp [hs, Hashing.hash?_of_error he]
  · simp [hs, hh, hm]
  · simp [hs, hh, hm]

/-- What a call returns depends on the state only through whether it holds the
block's hash. -/
theorem processNewBlock_fst_congr {t : BlocksManager}
    (hm : ∀ h, H.hash? b = some h → (h ∈ s.blocks ↔ h ∈ t.blocks)) :
    (s.processNewBlock H b).1 = (t.processNewBlock H b).1 := by
  unfold processNewBlock
  cases hb : H.toBytes b with
  | error e => rfl
  | ok bytes =>
    have hst := hm _ (Hashing.hash?_of_ok hb)
    rw [← Finmap.lookup_isSome, ← Finmap.lookup_isSome] at hst
    simp only
    cases hs : s.blocks.lookup (H.calculateSha256 bytes) <;>
      cases ht : t.blocks.lookup (H.calculateSha256 bytes) <;> simp_all

/-- **`process_new_block` is atomic.** An error is a storage error from
`to_bytes` or `BlockAlreadyExists`, and leaves both maps as they were; `Ok(h)`
adds `h ↦ b` to the block map, `h` being new there, and adds `h` to the set of
`b`'s checkpoint, creating the set if absent. No other entry of either map
changes. -/
theorem processNewBlock_atomic (s : BlocksManager) (b : Block) :
    (∀ err, (s.processNewBlock H b).1 = .error err →
      (s.processNewBlock H b).2 = s ∧
      (err = .blockAlreadyExists ∨ ∃ e, H.toBytes b = .error e ∧ err = .storageError e)) ∧
    (∀ h, (s.processNewBlock H b).1 = .ok h →
      h ∉ s.blocks ∧ H.hash? b = some h ∧
      (s.processNewBlock H b).2.blocks = s.blocks.insert h b ∧
      (s.processNewBlock H b).2.epochToBlockHash =
        s.epochToBlockHash.insert b.header.blockHeader.beacon.checkpoint
          (insert h ((s.epochToBlockHash.lookup b.header.blockHeader.beacon.checkpoint).getD ∅))) := by
  refine ⟨fun err hr => ⟨processNewBlock_snd_of_error hr, ?_⟩, fun h hr => ?_⟩
  · rcases processNewBlock_cases (H := H) s b with ⟨e, he, hs⟩ | ⟨_, _, _, hs⟩ | ⟨_, _, _, hs⟩ <;>
      simp only [hs, Except.error.injEq, reduceCtorEq] at hr
    · exact .inr ⟨e, he, hr.symm⟩
    · exact .inl hr.symm
  · obtain ⟨h1, h2, h3⟩ := processNewBlock_of_ok hr
    simp [h1, h2, h3]

end BlocksManager
end WitnetCore
