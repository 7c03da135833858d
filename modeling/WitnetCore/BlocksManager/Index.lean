/-
# The index invariant

The two maps of the blocks manager agree. Every block is keyed by its own
hash; every hash in an epoch's set is a block of that checkpoint (no dangling
reference); every block is in its checkpoint's set; no set is empty. So the
epoch sets partition the keys of the block map by checkpoint (`Inv.sum_card`),
and the epoch map is a function of the block map (`Inv.lookup_epochToBlockHash`):
two states that hold the same blocks are the same state (`Inv.ext`).

`process_new_block` keeps the invariant (`Inv.insertBlock`), so it holds of
every state a run reaches from `BlocksManager::default()`; the two readers
return the state they were given.

Key definitions: `BlocksManager.Inv`, `BlocksManager.epochSet`.
Key theorems: `BlocksManager.processNewBlocks_inv`, `BlocksManager.Inv.ext`.
-/
import WitnetCore.BlocksManager
import Mathlib.Algebra.BigOperators.Group.Finset

namespace WitnetCore
namespace BlocksManager

variable {ε : Type} (H : Hashing ε)

/-- The index invariant: the block map is keyed by hash, and the epoch map
indexes exactly its keys by checkpoint, with no empty set. -/
structure Inv (s : BlocksManager) : Prop where
  hash_eq : ∀ h b, s.blocks.lookup h = some b → H.hash? b = some h
  epoch_sound : ∀ e hs, s.epochToBlockHash.lookup e = some hs → ∀ h ∈ hs,
    ∃ b, s.blocks.lookup h = some b ∧ b.header.blockHeader.beacon.checkpoint = e
  epoch_complete : ∀ h b, s.blocks.lookup h = some b →
    ∃ hs, s.epochToBlockHash.lookup b.header.blockHeader.beacon.checkpoint = some hs ∧ h ∈ hs
  nonempty : ∀ e hs, s.epochToBlockHash.lookup e = some hs → hs.Nonempty

/-- The hashes of the blocks of checkpoint `e`. -/
def epochSet (blocks : Finmap fun _ : Hash => Block) (e : Epoch) : Finset Hash :=
  blocks.keys.filter fun h => (blocks.lookup h).map (·.header.blockHeader.beacon.checkpoint) = some e

variable {H} {s : BlocksManager} {b : Block} {h : Hash}

theorem mem_epochSet {blocks : Finmap fun _ : Hash => Block} {e : Epoch} {x : Hash} :
    x ∈ epochSet blocks e ↔ ∃ b, blocks.lookup x = some b ∧ b.header.blockHeader.beacon.checkpoint = e := by
  simp only [epochSet, Finset.mem_filter, Finmap.mem_keys, Option.map_eq_some']
  exact ⟨fun h => h.2, fun h => ⟨Finmap.mem_of_lookup_eq_some h.choose_spec.1, h⟩⟩

theorem mem_getD_empty {o : Option (Finset Hash)} {x : Hash} :
    x ∈ o.getD ∅ ↔ ∃ hs, o = some hs ∧ x ∈ hs := by
  cases o <;> simp

theorem inv_default : Inv H default := ⟨by simp, by simp, by simp, by simp⟩

/-! ### `process_new_block` keeps the invariant -/

theorem lookup_insertBlock_blocks (x : Hash) :
    (s.insertBlock h b).blocks.lookup x = if x = h then some b else s.blocks.lookup x := by
  split_ifs with e
  · exact e ▸ Finmap.lookup_insert _
  · exact Finmap.lookup_insert_of_ne _ e

theorem lookup_insertBlock_epochToBlockHash (e : Epoch) :
    (s.insertBlock h b).epochToBlockHash.lookup e =
      if e = b.header.blockHeader.beacon.checkpoint then
        some (insert h ((s.epochToBlockHash.lookup e).getD ∅))
      else s.epochToBlockHash.lookup e := by
  split_ifs with he
  · subst he; exact Finmap.lookup_insert _
  · exact Finmap.lookup_insert_of_ne _ he

/-- Inserting a block under its hash, new to the state, keeps the invariant. -/
theorem Inv.insertBlock (hi : Inv H s) (hh : H.hash? b = some h) (hn : h ∉ s.blocks) :
    Inv H (s.insertBlock h b) := by
  have hold : ∀ {x b'}, s.blocks.lookup x = some b' → (s.insertBlock h b).blocks.lookup x = some b' :=
    fun hx => by
      rw [lookup_insertBlock_blocks, if_neg fun (e : _ = h) => hn (e ▸ Finmap.mem_of_lookup_eq_some hx), hx]
  constructor
  · intro x b' hl
    rw [lookup_insertBlock_blocks] at hl
    split_ifs at hl with e
    · cases hl; exact e ▸ hh
    · exact hi.hash_eq _ _ hl
  · intro e hs hl x hx
    rw [lookup_insertBlock_epochToBlockHash] at hl
    split_ifs at hl with he
    · cases hl
      rcases Finset.mem_insert.mp hx with rfl | hx
      · exact ⟨b, by simp, he.symm⟩
      · obtain ⟨hs, hl, hx⟩ := mem_getD_empty.mp hx
        obtain ⟨b', hb', hc⟩ := hi.epoch_sound _ _ hl x hx
        exact ⟨b', hold hb', hc⟩
    · obtain ⟨b', hb', hc⟩ := hi.epoch_sound _ _ hl x hx
      exact ⟨b', hold hb', hc⟩
  · intro x b' hl
    rw [lookup_insertBlock_blocks] at hl
    split_ifs at hl with e
    · cases hl; subst e; simp
    · obtain ⟨hs, hhs, hx⟩ := hi.epoch_complete _ _ hl
      rw [lookup_insertBlock_epochToBlockHash]
      split_ifs
      · simp [hhs, hx]
      · exact ⟨hs, hhs, hx⟩
  · intro e hs hl
    rw [lookup_insertBlock_epochToBlockHash] at hl
    split_ifs at hl
    · cases hl; exact Finset.insert_nonempty _ _
    · exact hi.nonempty _ _ hl

theorem Inv.processNewBlock (hi : Inv H s) (b : Block) : Inv H (s.processNewBlock H b).2 := by
  rcases processNewBlock_error_or_ok (H := H) s b with ⟨_, he⟩ | ⟨_, hh, hn, he⟩ <;> rw [he]
  · exact hi
  · exact hi.insertBlock hh hn

theorem Inv.processNewBlocks : ∀ {s : BlocksManager} (bs : List Block), Inv H s →
    Inv H (s.processNewBlocks H bs).2
  | _, [], hi => hi
  | _, b :: bs, hi => Inv.processNewBlocks bs (hi.processNewBlock b)

/-! ### What the invariant says of the epoch map -/

/-- **The epoch sets partition the blocks by checkpoint**, so their sizes add
up to the number of blocks. -/
theorem Inv.sum_card (hi : Inv H s) :
    ∑ e ∈ s.epochToBlockHash.keys, ((s.epochToBlockHash.lookup e).getD ∅).card =
      s.blocks.keys.card := by
  have hdisj : ∀ x ∈ s.epochToBlockHash.keys, ∀ y ∈ s.epochToBlockHash.keys, x ≠ y →
      Disjoint ((s.epochToBlockHash.lookup x).getD ∅) ((s.epochToBlockHash.lookup y).getD ∅) := by
    intro x _ y _ hxy
    refine Finset.disjoint_left.mpr fun h hx hy => hxy ?_
    obtain ⟨hs, hl, hm⟩ := mem_getD_empty.mp hx
    obtain ⟨hs', hl', hm'⟩ := mem_getD_empty.mp hy
    obtain ⟨b, hb, rfl⟩ := hi.epoch_sound _ _ hl h hm
    obtain ⟨b', hb', rfl⟩ := hi.epoch_sound _ _ hl' h hm'
    rw [hb] at hb'; cases hb'; rfl
  rw [← Finset.card_biUnion hdisj]
  congr 1
  ext h
  simp only [Finset.mem_biUnion, Finmap.mem_keys]
  constructor
  · rintro ⟨e, -, hm⟩
    obtain ⟨hs, hl, hm⟩ := mem_getD_empty.mp hm
    obtain ⟨b, hb, -⟩ := hi.epoch_sound _ _ hl h hm
    exact Finmap.mem_of_lookup_eq_some hb
  · intro hm
    obtain ⟨b, hb⟩ := Finmap.mem_iff.mp hm
    obtain ⟨hs, hl, hx⟩ := hi.epoch_complete _ _ hb
    exact ⟨_, Finmap.mem_of_lookup_eq_some hl, by simp [hl, hx]⟩

/-- The epoch map is the block map's keys grouped by checkpoint. -/
theorem Inv.lookup_epochToBlockHash (hi : Inv H s) (e : Epoch) :
    s.epochToBlockHash.lookup e =
      if (epochSet s.blocks e).Nonempty then some (epochSet s.blocks e) else none := by
  split_ifs with hne
  · obtain ⟨h, hh⟩ := hne
    obtain ⟨b, hb, rfl⟩ := mem_epochSet.mp hh
    obtain ⟨hs, hl, -⟩ := hi.epoch_complete _ _ hb
    refine hl.trans (congrArg some (Finset.ext fun x => ?_))
    refine ⟨fun hx => mem_epochSet.mpr (hi.epoch_sound _ _ hl x hx), fun hx => ?_⟩
    obtain ⟨b', hb', hc⟩ := mem_epochSet.mp hx
    obtain ⟨hs', hl', hx'⟩ := hi.epoch_complete _ _ hb'
    rw [hc, hl] at hl'
    exact Option.some.inj hl' ▸ hx'
  · cases hl : s.epochToBlockHash.lookup e with
    | none => rfl
    | some hs =>
      obtain ⟨x, hx⟩ := hi.nonempty _ _ hl
      exact absurd ⟨x, mem_epochSet.mpr (hi.epoch_sound _ _ hl x hx)⟩ hne

/-- **The epoch map adds nothing to the block map**: two states that keep the
invariant and hold the same blocks are equal. -/
theorem Inv.ext {ε' : Type} {H' : Hashing ε'} {s' : BlocksManager} (hi : Inv H s)
    (hi' : Inv H' s') (hb : s.blocks = s'.blocks) : s = s' := by
  refine BlocksManager.ext (Finmap.ext_lookup fun e => ?_) hb
  rw [hi.lookup_epochToBlockHash, hi'.lookup_epochToBlockHash, hb]

/-! ### Every run keeps the invariant -/

/-- **Every run keeps the index invariant.** After any sequence of
`process_new_block` calls from `BlocksManager::default()` the two maps agree and
the epoch sets' sizes add up to the number of blocks; `try_to_get_block` and
`discard_existing_inv_vectors` leave the state as it is. -/
theorem processNewBlocks_inv (bs : List Block) :
    let s := ((default : BlocksManager).processNewBlocks H bs).2
    Inv H s ∧
    ∑ e ∈ s.epochToBlockHash.keys, ((s.epochToBlockHash.lookup e).getD ∅).card = s.blocks.keys.card ∧
    (∀ h, (s.tryToGetBlock (ε := ε) h).2 = s) ∧
    ∀ v, (s.discardExistingInvVectors (ε := ε) v).2 = s :=
  have hi := inv_default.processNewBlocks bs
  ⟨hi, hi.sum_card, fun _ => rfl, fun _ => rfl⟩

end BlocksManager
end WitnetCore
