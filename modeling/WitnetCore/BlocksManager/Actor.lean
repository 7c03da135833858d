/-
# The actor: calls in any interleaving

The `BlocksManager` actor handles one message at a time, in the order it
receives them: a new block, a block lookup, or an inventory reconciliation
(its message handlers are not in this repository; each calls one method).
Lookups and reconciliations return the state they were given, so a run of
calls accepts the hashes and reaches the state its block submissions alone
do (`run_eq_processNewBlocks`), and keeps the index invariant (`run_inv`);
every reply is the one the history of blocks submitted before it determines
(`run_replies`): the first block of a hash, or the vectors, of whatever kind,
that wrap no hash of an earlier block.

Key definitions: `BlocksManager.Call`, `BlocksManager.run`,
`BlocksManager.expectedReply`.
-/
import WitnetCore.BlocksManager.History

namespace WitnetCore
namespace BlocksManager

/-- Modelled from the spec: a message to the actor (`blocks_manager::messages`
is not in this repository), one per method. -/
inductive Call
  | processNewBlock (block : Block)
  | tryToGetBlock (hash : Hash)
  | discardExistingInvVectors (invVectors : List InvVector)
  deriving DecidableEq

/-- Modelled from the spec: the actor's answer to a message, what the method
it calls returns. -/
inductive Reply (ε : Type)
  | processNewBlock (r : Except (BlocksManagerError ε) Hash)
  | tryToGetBlock (r : Except (BlocksManagerError ε) Block)
  | discardExistingInvVectors (r : InvVectorsResult ε)
  deriving DecidableEq

/-- The block a message submits, if it submits one. -/
def Call.block? : Call → Option Block
  | .processNewBlock b => some b
  | _ => none

/-- The blocks a sequence of messages submits, in order. -/
def submitted (cs : List Call) : List Block := cs.filterMap Call.block?

/-- The hashes the actor accepted, in order: its `Ok` answers to new blocks. -/
def acceptedHashes {ε : Type} (rs : List (Reply ε)) : List Hash :=
  rs.filterMap fun
    | .processNewBlock (.ok h) => some h
    | _ => none

variable {ε : Type} (H : Hashing ε)

/-- Modelled from the spec: the actor handles one message by calling its
method (`blocks_manager::handlers` is not in this repository). -/
def handle (self : BlocksManager) : Call → Reply ε × BlocksManager
  | .processNewBlock block =>
    let r := self.processNewBlock H block
    (.processNewBlock r.1, r.2)
  | .tryToGetBlock hash =>
    let r := self.tryToGetBlock hash
    (.tryToGetBlock r.1, r.2)
  | .discardExistingInvVectors invVectors =>
    let r := self.discardExistingInvVectors invVectors
    (.discardExistingInvVectors r.1, r.2)

/-- The actor handles messages one after another. -/
def run : BlocksManager → List Call → List (Reply ε) × BlocksManager
  | self, [] => ([], self)
  | self, c :: cs =>
    let r := self.handle H c
    let rs := r.2.run cs
    (r.1 :: rs.1, rs.2)

/-- By the spec: the answer to a message after the blocks `earlier` were
submitted. A lookup finds the first of them with the hash; a reconciliation
keeps the vectors whose hash none of them has. -/
def expectedReply (earlier : List Block) : Call → Reply ε
  | .processNewBlock b => .processNewBlock (expectedResult H earlier b)
  | .tryToGetBlock h => .tryToGetBlock <|
    match firstWithHash H earlier h with
    | some b => .ok b
    | none => .error .blockDoesNotExist
  | .discardExistingInvVectors v => .discardExistingInvVectors <|
    .ok (v.filter fun iv => ¬∃ b ∈ earlier, ∃ h ∈ H.hash? b, iv.Wraps h)

variable {H} {s : BlocksManager} {pre : List Block}

@[simp] theorem submitted_nil : submitted [] = [] := rfl

@[simp] theorem submitted_cons (c : Call) (cs : List Call) :
    submitted (c :: cs) = c.block?.toList ++ submitted cs := by
  cases c <;> rfl

/-- A message changes the state only by the block it submits. -/
theorem handle_snd (s : BlocksManager) (c : Call) :
    (s.handle H c).2 = (s.processNewBlocks H c.block?.toList).2 := by
  cases c <;> rfl

/-- A run is its block submissions: it accepts the hashes they return as `Ok`,
and reaches the state they reach. -/
theorem run_eq_processNewBlocks : ∀ (s : BlocksManager) (cs : List Call),
    acceptedHashes (s.run H cs).1 = okHashes (s.processNewBlocks H (submitted cs)).1 ∧
    (s.run H cs).2 = (s.processNewBlocks H (submitted cs)).2
  | _, [] => ⟨rfl, rfl⟩
  | s, c :: cs => by
    obtain ⟨ih1, ih2⟩ := run_eq_processNewBlocks (s.handle H c).2 cs
    cases c with
    | processNewBlock b =>
      refine ⟨?_, ih2⟩
      show acceptedHashes (.processNewBlock (s.processNewBlock H b).1 :: _) =
        okHashes ((s.processNewBlock H b).1 :: _)
      cases (s.processNewBlock H b).1 with
      | error => exact ih1
      | ok h => exact congrArg (h :: ·) ih1
    | tryToGetBlock _ | discardExistingInvVectors _ => exact ⟨ih1, ih2⟩

/-- One message is answered as the spec says, and keeps the refinement. -/
theorem Refines.handle (hr : Refines H s pre) (c : Call) :
    (s.handle H c).1 = expectedReply H pre c ∧
      Refines H (s.handle H c).2 (pre ++ c.block?.toList) := by
  cases c with
  | processNewBlock b =>
    obtain ⟨h1, h2⟩ := hr.processNewBlock b
    exact ⟨by simp [BlocksManager.handle, expectedReply, h1], h2⟩
  | tryToGetBlock h =>
    refine ⟨?_, by simpa [Call.block?] using hr⟩
    simp only [BlocksManager.handle, expectedReply, tryToGetBlock, hr h, Reply.tryToGetBlock.injEq]
    cases firstWithHash H pre h <;> rfl
  | discardExistingInvVectors v =>
    refine ⟨?_, by simpa [Call.block?] using hr⟩
    simp only [BlocksManager.handle, expectedReply, discardExistingInvVectors,
      Reply.discardExistingInvVectors.injEq, Except.ok.injEq]
    refine List.filter_congr fun iv _ => ?_
    simp only [InvVector.wraps_iff_hash_eq, Option.mem_def, exists_eq_right', ← hr.mem_iff,
      ← Finmap.lookup_isSome]
    cases s.blocks.lookup iv.hash <;> rfl

theorem Refines.run : ∀ {s : BlocksManager} {pre : List Block} (cs : List Call),
    Refines H s pre → Refines H (s.run H cs).2 (pre ++ submitted cs) ∧
      ∀ i (hi : i < cs.length),
        (s.run H cs).1[i]? = some (expectedReply H (pre ++ submitted (cs.take i)) cs[i])
  | _, _, [], hr => ⟨by simpa using hr, fun _ hi => absurd hi (Nat.not_lt_zero _)⟩
  | _, _, c :: cs, hr => by
    obtain ⟨h1, h2⟩ := hr.handle c
    obtain ⟨ih1, ih2⟩ := Refines.run cs h2
    refine ⟨by simpa using ih1, fun i hi => ?_⟩
    cases i with
    | zero =>
      simp only [BlocksManager.run, List.take_zero, submitted_nil, List.append_nil,
        List.getElem?_cons_zero, List.getElem_cons_zero, h1]
    | succ i =>
      simpa only [BlocksManager.run, List.take_succ_cons, submitted_cons, List.append_assoc,
        List.getElem?_cons_succ, List.getElem_cons_succ] using ih2 i (Nat.lt_of_succ_lt_succ hi)

theorem Inv.run : ∀ {s : BlocksManager} (cs : List Call), Inv H s → Inv H (s.run H cs).2
  | _, [], hi => hi
  | s, c :: cs, hi => Inv.run cs (by rw [handle_snd]; exact hi.processNewBlocks _)

/-- Every state the actor reaches keeps the index invariant. -/
theorem run_inv (cs : List Call) : Inv H ((default : BlocksManager).run H cs).2 :=
  inv_default.run cs

/-- **Every reply is the history's.** From `BlocksManager::default()`, the
actor answers message `i` of any sequence as the spec says from the blocks
submitted before it, and ends holding, under each hash, the first submitted
block with that hash. -/
theorem run_replies (cs : List Call) :
    (∀ i (hi : i < cs.length),
      ((default : BlocksManager).run H cs).1[i]? =
        some (expectedReply H (submitted (cs.take i)) cs[i])) ∧
    ∀ h, (((default : BlocksManager).run H cs).2.blocks.lookup h) =
      firstWithHash H (submitted cs) h := by
  have hr := (refines_default (H := H)).run cs
  exact ⟨fun i hi => by simpa using hr.2 i hi, by simpa using hr.1⟩

end BlocksManager
end WitnetCore
