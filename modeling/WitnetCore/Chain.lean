/-
# The chain types the blocks manager handles

The types of `witnet_data_structures::chain` that `BlocksManager` reads and
stores: a block, its header with the checkpoint beacon that names its epoch,
the inventory vectors peers offer, and the hash that keys them all. The crate
is not in this repository; the fields are those the test fixture
`build_hardcoded_block` sets.

A block's hash is `calculate_sha256` of `Storable::to_bytes`, and neither is
in this repository either: `Hashing` takes both, so everything proved about
the blocks manager holds for every serialiser and every digest. The tests'
blocks and a stand-in `Hashing` (`buildHardcodedBlock`, `testHashing`) run the
model on concrete inputs.

Key definitions: `Block`, `InvVector.hash`, `Hashing.hash?`.
-/
import Mathlib.Data.Vector.Defs

namespace WitnetCore

/-- The 32 bytes of a SHA-256 digest. -/
abbrev SHA256 := Mathlib.Vector UInt8 32

/-- The hash of a block or of any other inventory item. -/
inductive Hash
  | sha256 (digest : SHA256)
  deriving DecidableEq

/-- An epoch of the protocol, `u32`. -/
abbrev Epoch := UInt32

/-- The position a block claims: its epoch and the block it follows. -/
structure CheckpointBeacon where
  checkpoint : Epoch
  hashPrevBlock : Hash
  deriving DecidableEq

structure BlockHeader where
  version : UInt32
  beacon : CheckpointBeacon
  hashMerkleRoot : Hash
  deriving DecidableEq

/-- Modelled from the spec: the signature type of `witnet_data_structures` is
not in this repository, and the core only sees whether a block carries one. -/
structure Signature where
  bytes : List UInt8
  deriving DecidableEq

/-- A block's eligibility proof: an optional signature and its influence. -/
structure LeadershipProof where
  blockSig : Option Signature
  influence : UInt64
  deriving DecidableEq

structure BlockHeaderWithProof where
  blockHeader : BlockHeader
  proof : LeadershipProof
  deriving DecidableEq

/-- A transaction, a unit struct in this version of the chain types. -/
structure Transaction where
  deriving DecidableEq

structure Block where
  header : BlockHeaderWithProof
  txnCount : UInt32
  txns : List Transaction
  deriving DecidableEq

/-- An inventory vector: a kind of network content and the hash naming it. -/
inductive InvVector
  | error (hash : Hash)
  | block (hash : Hash)
  | tx (hash : Hash)
  | dataRequest (hash : Hash)
  | dataResult (hash : Hash)
  deriving DecidableEq

/-- The hash an inventory vector wraps, whatever its variant: the match in
`discard_existing_inv_vectors`. -/
def InvVector.hash : InvVector → Hash
  | .error h | .block h | .tx h | .dataRequest h | .dataResult h => h

/-- By the spec: `iv` wraps `h`, whatever its kind (`Error`, `Block`, `Tx`,
`DataRequest` or `DataResult`). -/
def InvVector.Wraps (iv : InvVector) (h : Hash) : Prop :=
  iv = .error h ∨ iv = .block h ∨ iv = .tx h ∨ iv = .dataRequest h ∨ iv = .dataResult h

instance (iv : InvVector) (h : Hash) : Decidable (iv.Wraps h) :=
  inferInstanceAs (Decidable (_ ∨ _))

/-- The match of `discard_existing_inv_vectors` extracts the hash every kind of
entry wraps. -/
theorem InvVector.wraps_iff_hash_eq {iv : InvVector} {h : Hash} : iv.Wraps h ↔ iv.hash = h := by
  cases iv <;> simp [Wraps, hash, eq_comm]

/-- What `process_new_block` hashes a block with: `Storable::to_bytes`, which
fails with a storage error of type `ε`, and `calculate_sha256`. -/
structure Hashing (ε : Type) where
  toBytes : Block → Except ε (List UInt8)
  calculateSha256 : List UInt8 → Hash

namespace Hashing

variable {ε : Type} (H : Hashing ε)

/-- A block's hash, `calculate_sha256(&block.to_bytes()?)`, when its
serialisation succeeds. -/
def hash? (b : Block) : Option Hash := (H.toBytes b).toOption.map H.calculateSha256

variable {H}

@[simp] theorem hash?_of_ok {b : Block} {bytes : List UInt8} (h : H.toBytes b = .ok bytes) :
    H.hash? b = some (H.calculateSha256 bytes) := by
  simp [hash?, h, Except.toOption]

@[simp] theorem hash?_of_error {b : Block} {e : ε} (h : H.toBytes b = .error e) :
    H.hash? b = none := by
  simp [hash?, h, Except.toOption]

end Hashing

/-! ### The tests' blocks -/

/-- `build_hardcoded_block` of the blocks manager's tests. -/
def buildHardcodedBlock (checkpoint : UInt32) (influence : UInt64) : Block where
  header :=
    { blockHeader :=
        { version := 1
          beacon := { checkpoint, hashPrevBlock := .sha256 (Mathlib.Vector.replicate 32 4) }
          hashMerkleRoot := .sha256 (Mathlib.Vector.replicate 32 3) }
      proof := { blockSig := none, influence } }
  txnCount := 1
  txns := [⟨⟩]

/-- A stand-in for `to_bytes` and `calculate_sha256`, to run the model on the
tests' blocks: the influence's low byte, repeated. -/
def testHashing : Hashing Unit where
  toBytes b := .ok [b.header.proof.influence.toUInt8]
  calculateSha256 bytes := .sha256 (Mathlib.Vector.replicate 32 (bytes.headD 0))

end WitnetCore
