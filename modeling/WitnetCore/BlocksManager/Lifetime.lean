/-
# Over the actor's lifetime

What the actor's state can and cannot become, over any sequence of messages
from any state, with no invariant assumed. The index only grows (`Grows`): a
block once held is held unchanged, an epoch's set only gains hashes, and so a
reconciliation answers with ever fewer vectors (`run_monotone`). A hash is
accepted at most once in the actor's life, never one it held already, and the
block map grows by exactly the accepted hashes (`run_accepts_once`); it ends
holding what it held and the blocks of the calls answered `Ok`, nothing else
(`run_blocks_lookup`).

From `BlocksManager::default()` the epoch map is what the spec says it is for:
under each epoch, the hashes whose first submitted block claims it, and no
entry for an epoch no such block claims (`run_candidates`). And in every state
a reconciliation keeps, with every repeat and whatever their kind, exactly the
vectors that wrap a hash the state does not hold, which are those whose block
`process_new_block` would accept (`discardExistingInvVectors_accepts`): a node
that requests what the reconciliation returns requests no block it would
reject.

Key definitions: `BlocksManager.Grows`, `BlocksManager.candidates`.
-/
import WitnetCore.BlocksManager.Actor

namespace WitnetCore
namespace BlocksManager

/-- `t` extends `s`: every block of `s` is held in `t` under the same hash,
and every epoch's set of hashes in `t` contains the one in `s`. -/
structure Grows (s t : BlocksManager) : Prop where
  blocks : ∀ h b, s.blocks.lookup h = some b → t.blocks.lookup h = some b
  epochs : ∀ e, (s.epochToBlockHash.lookup e).getD ∅ ⊆ (t.epochToBlockHash.lookup e).getD ∅

variable {ε : Type} {H : Hashing ε} {s t u : BlocksManager} {b : Block} {h : Hash}

/-! ### The index only grows -/

theorem Grows.refl (s : BlocksManager) : Grows s s := ⟨fun _ _ => id, fun _ => subset_rfl⟩

theorem Grows.trans (g : Grows s t) (g' : Grows t u) : Grows s u :=
  ⟨fun h b hb => g'.blocks h b (g.blocks h b hb), fun e => (g.epochs e).trans (g'.epochs e)⟩

theorem grows_insertBlock (hn : h ∉ s.blocks) : Grows s (s.insertBlock h b) := by
  refine ⟨fun x b' hx => ?_, fun e => ?_⟩
  · rw [lookup_insertBlock_blocks,
      if_neg fun (e : x = h) => hn (e ▸ Finmap.mem_of_lookup_eq_some hx), hx]
  · rw [lookup_insertBlock_epochToBlockHash]
    split_ifs
    · exact Finset.subset_insert _ _
    · exact subset_rfl

theorem grows_processNewBlock (s : BlocksManager) (b : Block) : Grows s (s.processNewBlock H b).2 := by
  rcases processNewBlock_error_or_ok (H := H) s b with ⟨_, he⟩ | ⟨_, -, hn, he⟩ <;> rw [he]
  · exact .refl s
  · exact grows_insertBlock hn

theorem grows_run : ∀ (s : BlocksManager) (cs : List Call), Grows s (s.run H cs).2
  | s, [] => .refl s
  | s, .processNewBlock b :: cs => (grows_processNewBlock s b).trans (grows_run _ cs)
  | s, .tryToGetBlock _ :: cs | s, .discardExistingInvVectors _ :: cs => grows_run s cs

/-- **Nothing is forgotten.** Over any sequence of messages from any state, a
block held under a hash stays held under it unchanged, an epoch's set of
hashes only gains members, and `discard_existing_inv_vectors` of any vectors
answers with a sublist of what it answered before. -/
theorem run_monotone (s : BlocksManager) (cs : List Call) :
    (∀ h b, s.blocks.lookup h = some b → (s.run H cs).2.blocks.lookup h = some b) ∧
    (∀ e, (s.epochToBlockHash.lookup e).getD ∅ ⊆
      ((s.run H cs).2.epochToBlockHash.lookup e).getD ∅) ∧
    ∀ v, ∃ l l', (s.discardExistingInvVectors (ε := ε) v).1 = .ok l ∧
      ((s.run H cs).2.discardExistingInvVectors (ε := ε) v).1 = .ok l' ∧ l'.Sublist l := by
  have g := grows_run (H := H) s cs
  refine ⟨g.blocks, g.epochs, fun v => ⟨_, _, rfl, rfl, List.monotone_filter_right v fun iv hn => ?_⟩⟩
  cases hl : s.blocks.lookup iv.hash with
  | none => rfl
  | some b => simp [g.blocks _ _ hl] at hn

/-- **Each hash is accepted once.** Over any sequence of messages from any
state, the hashes the actor answers `Ok` are distinct and new to the state it
started from; the block map gains exactly them, and its size grows by their
number. -/
theorem run_accepts_once (s : BlocksManager) (cs : List Call) :
    (acceptedHashes (s.run H cs).1).Nodup ∧
    (∀ h ∈ acceptedHashes (s.run H cs).1, h ∉ s.blocks) ∧
    (∀ h, h ∈ (s.run H cs).2.blocks ↔ h ∈ s.blocks ∨ h ∈ acceptedHashes (s.run H cs).1) ∧
    (s.run H cs).2.blocks.keys.card = s.blocks.keys.card + (acceptedHashes (s.run H cs).1).length := by
  obtain ⟨ha, hs⟩ := run_eq_processNewBlocks (H := H) s cs
  obtain ⟨h₁, h₂, h₃⟩ := processNewBlocks_okHashes (H := H) s (submitted cs)
  rw [ha, hs]
  exact ⟨h₁, h₂, h₃, processNewBlocks_card s _⟩

/-! ### The store is the log of accepted blocks -/

/-- One message adds to the block map exactly the block it submits, under the
hash it answers `Ok`. -/
theorem lookup_handle (s : BlocksManager) (c : Call) (h : Hash) (b : Block) :
    (s.handle H c).2.blocks.lookup h = some b ↔ s.blocks.lookup h = some b ∨
      (Call.processNewBlock b = c ∧ Reply.processNewBlock (.ok h) = (s.handle H c).1) := by
  cases c with
  | processNewBlock b' =>
    simp only [handle, Call.processNewBlock.injEq, Reply.processNewBlock.injEq]
    rcases processNewBlock_error_or_ok (H := H) s b' with ⟨_, he⟩ | ⟨h', -, hn, he⟩ <;> rw [he]
    · simp
    · rw [lookup_insertBlock_blocks]
      by_cases e : h = h'
      · subst e; simp [Finmap.lookup_eq_none.mpr hn, eq_comm]
      · simp [e]
  | tryToGetBlock _ | discardExistingInvVectors _ =>
    simp [handle, tryToGetBlock, discardExistingInvVectors]

/-- **No update is lost, none is invented.** Over any sequence of messages
from any state, the block map ends holding `b` under `h` exactly when it held
it at the start, or some message submitted `b` and was answered `Ok(h)`. -/
theorem run_blocks_lookup : ∀ (s : BlocksManager) (cs : List Call) (h : Hash) (b : Block),
    (s.run H cs).2.blocks.lookup h = some b ↔ s.blocks.lookup h = some b ∨
      (Call.processNewBlock b, Reply.processNewBlock (.ok h)) ∈ cs.zip (s.run H cs).1
  | s, [], h, b => by simp [run]
  | s, c :: cs, h, b => by
    show ((s.handle H c).2.run H cs).2.blocks.lookup h = some b ↔ _ ∨
      _ ∈ (c :: cs).zip ((s.handle H c).1 :: ((s.handle H c).2.run H cs).1)
    rw [run_blocks_lookup _ cs, lookup_handle, List.zip_cons_cons, List.mem_cons, Prod.mk.injEq,
      or_assoc]

/-! ### What the epoch map is for -/

variable (H) in
/-- By the spec: the hashes whose first block in `bs` claims checkpoint `e`. -/
def candidates (bs : List Block) (e : Epoch) : Finset Hash :=
  (bs.filterMap H.hash?).toFinset.filter fun h =>
    (firstWithHash H bs h).map (·.header.blockHeader.beacon.checkpoint) = some e

theorem mem_candidates {bs : List Block} {e : Epoch} {x : Hash} :
    x ∈ candidates H bs e ↔
      ∃ b, firstWithHash H bs x = some b ∧ b.header.blockHeader.beacon.checkpoint = e := by
  simp only [candidates, Finset.mem_filter, List.mem_toFinset, List.mem_filterMap,
    Option.map_eq_some']
  refine ⟨And.right, fun hx => ⟨?_, hx⟩⟩
  obtain ⟨b, hb, -⟩ := hx
  exact ⟨b, List.mem_of_find?_eq_some hb, by simpa using List.find?_some hb⟩

/-- **The epoch map indexes the history.** After any sequence of messages from
`BlocksManager::default()`, an epoch's entry is the set of hashes whose first
submitted block claims that epoch, and there is no entry for an epoch no such
block claims. -/
theorem run_candidates (cs : List Call) (e : Epoch) :
    ((default : BlocksManager).run H cs).2.epochToBlockHash.lookup e =
      if (candidates H (submitted cs) e).Nonempty then some (candidates H (submitted cs) e)
      else none := by
  have hr := (refines_default (H := H)).run cs
  have hs : epochSet ((default : BlocksManager).run H cs).2.blocks e = candidates H (submitted cs) e :=
    Finset.ext fun x => by rw [mem_epochSet, mem_candidates, hr.1 x, List.nil_append]
  rw [(inv_default.run cs).lookup_epochToBlockHash, hs]

/-- `add_blocks_same_epoch`: two blocks of checkpoint 2 share its entry. -/
example : (((default : BlocksManager).run testHashing
    [.processNewBlock (buildHardcodedBlock 2 99999), .processNewBlock (buildHardcodedBlock 2 12345)]).2.epochToBlockHash.lookup
      2).map Finset.card = some 2 := by
  decide

/-! ### Reconciliation predicts acceptance -/

/-- A block is accepted iff the state does not hold its hash. -/
theorem processNewBlock_eq_ok_iff (hh : H.hash? b = some h) :
    (s.processNewBlock H b).1 = .ok h ↔ h ∉ s.blocks := by
  rcases processNewBlock_cases (H := H) s b with ⟨e, he, -⟩ | ⟨h', hh', hm, hs⟩ | ⟨h', hh', hm, hs⟩
  · simp [Hashing.hash?_of_error he] at hh
  all_goals rw [hh, Option.some.injEq] at hh'; subst hh'; simp [hs, hm]

/-- **A reconciliation keeps what would be accepted.** In every state,
`discard_existing_inv_vectors v` answers with the sublist of `v` that keeps
every repeat of a vector it keeps, and keeps a vector, of whatever kind,
exactly when the state does not hold the hash it wraps: exactly when
`process_new_block` would accept, from that state, a block of that hash. -/
theorem discardExistingInvVectors_accepts (s : BlocksManager) (v : List InvVector) :
    ∃ w, (s.discardExistingInvVectors (ε := ε) v).1 = .ok w ∧ w.Sublist v ∧
      (∀ iv ∈ w, w.count iv = v.count iv) ∧
      ∀ iv ∈ v, ∀ h, iv.Wraps h → (iv ∈ w ↔ h ∉ s.blocks) ∧
        ∀ b, H.hash? b = some h → (iv ∈ w ↔ (s.processNewBlock H b).1 = .ok h) := by
  refine ⟨_, rfl, List.filter_sublist _, fun iv hw => List.count_filter (List.mem_filter.mp hw).2,
    fun iv hv h hh => ?_⟩
  have hm : iv ∈ v.filter (fun iv => (s.blocks.lookup iv.hash).isNone) ↔ h ∉ s.blocks := by
    rw [List.mem_filter, ← InvVector.wraps_iff_hash_eq.mp hh, ← Finmap.lookup_eq_none]
    simp [hv, Option.isNone_iff_eq_none]
  exact ⟨hm, fun b hb => hm.trans (processNewBlock_eq_ok_iff hb).symm⟩

end BlocksManager
end WitnetCore
