import ApexDB.Proof.AvlValid
import ApexDB.Proof.StoreRuns

/-!
# Everything is disposed of exactly once

Entries and nodes live in arenas, which remember what was freed and fault on anything that is
done to a dead address. **What remains to be shown is that nothing is left**: at the end of a
run no entry is alive (`Kept`), and an entry that is freed has a set with no node left
(`Entry.Spent`): `entry_del_sync` frees the entry as `zset_clear` has left it, so the nodes are
read off the freed record. Then each arena has freed exactly the addresses it has handed out.

An entry leaves by `del`, by a deadline that is not positive, by expiry, through the queue of
the pool or in the destructor. Only in the last case is it still linked; the walk over the
tables reads nothing but the links that it has not passed.
-/

set_option autoImplicit false

namespace ApexDB

open Lib BinaryTree

/-! ## 1. The nodes of one set

`InTree` follows the links in memory and knows nothing of representations, so that what is said
with it is about the program.
-/

section Nodes

variable {zs : ZSet} {ids : BinaryTree NodeId} {t : ZTree} {n : NodeId}

/-- The nodes that can be reached from the root. -/
inductive ZSet.InTree (zs : ZSet) : NodeId → Prop where
  | root {n : NodeId} : zs.root = some n → ZSet.InTree zs n
  | child {p n : NodeId} (s : Side) : ZSet.InTree zs p → (zs.tree p).link s = some n → ZSet.InTree zs n

def ZSet.Linked (zs : ZSet) (n : NodeId) : Prop := (∃ h ∈ zs.hmap.nodes, h.owner = n) ∨ zs.InTree n

theorem ZSet.Tree.mem_of_inTree (h : zs.Tree ids) (hn : zs.InTree n) : n ∈ ids.inorder := by
  induction hn with
  | root hroot =>
    rw [h.root] at hroot
    cases ids with
    | nil => cases hroot
    | node x l r =>
      cases hroot
      simp
  | child s _ hlink ih =>
    have hdown := h.rep.shaped.link_mem _ ih _ (by
      cases s with
      | left => exact .inr (.inl hlink)
      | right => exact .inr (.inr hlink))
    rcases hdown with hmem | hnone
    · exact hmem
    · cases hnone

theorem ZSet.Holds.linked_live (h : zs.Holds ids t) (hn : zs.Linked n) : (zs.nodes.read n).isSome := by
  have hmem : n ∈ ids.inorder := by
    rcases hn with ⟨x, hx, rfl⟩ | hn
    · exact (h.index.mem_nodes hx).1
    · exact h.toTree.mem_of_inTree hn
  rw [h.live n hmem]
  rfl

end Nodes

/-! ## 2. Nothing dead is linked

The invariant of the store has this in it, in terms of rows. Here it is said of the links
themselves, for a reader who does not want to know what a row is.
-/

section Links

variable {Z : Type} {rel : ZTree → Z → Prop} {st st' : Store} {rows : List (Row Z)} {m : RefStore Z}

/-- **What the hash maps, the trees and the heap lead to is alive**, no entry is in the map
twice, and what waits for the pool is in none of them. -/
structure Store.LinksLive (st : Store) : Prop where
  map : ∀ e, st.Linked e → (st.ents.read e).isSome
  once : (st.db.nodes.map HNode.owner).Nodup
  heap : ∀ x ∈ st.heap, (st.ents.read x.ref).isSome
  sets : ∀ e ent n, st.ents.read e = some ent → ent.zset.Linked n → (ent.zset.nodes.read n).isSome
  queued : ∀ e ∈ st.queue, (st.ents.read e).isSome ∧ st.Unreferenced e

theorem Store.Holds.owners_perm (h : st.Holds rel rows) :
    (st.db.nodes.map HNode.owner).Perm (rows.map Row.id) := by
  have hperm := h.index.nodes.map HNode.owner
  rw [List.map_map, show (HNode.owner ∘ fun i => HNode.mk (strHash (st.keyAt i)) i) = id from rfl,
    List.map_id] at hperm
  exact hperm

theorem Store.Holds.sound (h : st.Holds rel rows) {e : EntryId} {ent : Entry}
    (hread : st.ents.read e = some ent) : ent.Sound := by
  rcases h.owned e ent hread with hrow | hwait
  · obtain ⟨r, hr, rfl⟩ := List.mem_map.mp hrow
    obtain ⟨ent', hread', -, hden⟩ := (h.shows r hr).live
    rw [hread] at hread'
    cases hread'
    exact hden.sound
  · obtain ⟨-, ent', hread', hs⟩ := h.waiting e hwait
    rw [hread] at hread'
    cases hread'
    exact hs

theorem Store.Models.linksLive (h : st.Models rel m) : st.LinksLive := by
  have hgone := h.ttlIndex.gone
  have halive : ∀ e, ¬st.Unreferenced e → (st.ents.read e).isSome := by
    intro e he
    cases hread : st.ents.read e with
    | none => exact absurd (hgone e (.inl hread)) he
    | some ent => rfl
  obtain ⟨rows, h, -⟩ := h
  refine ⟨fun e he => ?_, ?_, fun x hx => ?_, fun e ent n hread hn => ?_, fun e he => ?_⟩
  · apply halive
    exact fun hun => hun.1 he
  · exact h.owners_perm.nodup_iff.mpr h.toRows.ids_nodup
  · apply halive
    exact fun hun => hun.2 x hx rfl
  · have hs := h.sound hread
    cases htype : ent.type with
    | str =>
      rw [hs.str htype] at hn ⊢
      exact ZSet.holds_empty.linked_live hn
    | zset =>
      obtain ⟨ids, t, ht⟩ := hs.zset htype
      exact ht.linked_live hn
  · obtain ⟨-, ent, hread, -⟩ := h.waiting e he
    refine ⟨?_, hgone e (.inr he)⟩
    rw [hread]
    rfl

end Links

/-! ## 3. The destructor

The destructor first stops the pool, which does the works that are left, in an order that nobody
knows; then it walks over both tables, slot by slot, and disposes of every node of every chain.
-/

section Destroy

variable {Z : Type} {rel : ZTree → Z → Prop} {st : Store} {rows : List (Row Z)} {m : RefStore Z}

/-- A work that is done leaves the linked entries as they are. -/
theorem workDone_spec (h : st.Holds rel rows) (e : EntryId) :
    ∃ st', workDone st e = some st' ∧ st'.Holds rel rows ∧ st'.queue = st.queue.erase e := by
  unfold workDone
  by_cases he : e ∈ st.queue
  · rw [if_pos he]
    obtain ⟨st', hrun, h', hqueue, -⟩ := h.finish (List.perm_cons_erase he)
    exact ⟨st', hrun, h', hqueue⟩
  · rw [if_neg he]
    exact ⟨st, rfl, h, (List.erase_of_not_mem he).symm⟩

/-- The works that were left, in the order in which they are done. -/
theorem worksDone_spec : ∀ {order : List EntryId} {st : Store}, st.Holds rel rows →
    order.Perm st.queue → ∃ st', order.foldlM workDone st = some st' ∧ st'.Holds rel rows ∧
      st'.queue = [] := by
  intro order
  induction order with
  | nil =>
    intro st h hperm
    exact ⟨st, rfl, h, List.nil_perm.mp hperm⟩
  | cons e order ih =>
    intro st h hperm
    obtain ⟨st₁, hrun₁, h₁, hqueue⟩ := workDone_spec h e
    have hrest : order.Perm st₁.queue := by
      rw [hqueue]
      exact List.cons_perm_iff_perm_erase.mp hperm |>.2
    obtain ⟨st', hrun, h'⟩ := ih h₁ hrest
    refine ⟨st', ?_, h'⟩
    rw [List.foldlM_cons, hrun₁]
    exact hrun

/-- The walk over the slots is a walk over the nodes. -/
theorem destroySlots_eq (tab : List (List (HNode EntryId))) : ∀ (is : List Nat) (st : Store),
    (∀ i ∈ is, i < tab.length) →
    is.foldlM (fun st i => do destroyChain st (← tab[i]?)) st =
      ((is.flatMap fun i => (tab[i]?).getD []).map HNode.owner).foldlM entryDelSync st := by
  intro is
  induction is with
  | nil => intro st _; rfl
  | cons i is ih =>
    intro st hlt
    have hlt' := hlt i List.mem_cons_self
    have hi : tab[i]? = some tab[i] := List.getElem?_eq_getElem hlt'
    rw [List.foldlM_cons, List.flatMap_cons, List.map_append, List.foldlM_append, hi]
    apply bind_congr
    intro st'
    exact ih st' fun j hj => hlt j (List.mem_cons_of_mem _ hj)

theorem destroyTable_eq {table : HTab EntryId} (h : table.Ok) (st : Store) :
    destroyTable st table = (table.nodes.map HNode.owner).foldlM entryDelSync st := by
  rcases h with rfl | ⟨tab, hl⟩
  · rfl
  · rw [destroyTable, hl.tab_eq, hl.nodes_eq, ← flatMap_range_getElem?, ← destroySlots_eq, hl.mask_eq]
    exact fun i hi => List.mem_range.mp hi

theorem entriesDelSync_db : ∀ {ids : List EntryId} {st st' : Store},
    ids.foldlM entryDelSync st = some st' → st'.db = st.db := by
  intro ids
  induction ids with
  | nil =>
    intro st st' hrun
    cases hrun
    rfl
  | cons e ids ih =>
    intro st st' hrun
    obtain ⟨st₁, hdel, hrun⟩ := Option.bind_eq_some_iff.mp hrun
    rw [ih hrun]
    simp only [entryDelSync, Option.bind_eq_bind, Option.bind_eq_some_iff] at hdel
    obtain ⟨ent, -, zs, -, ents₁, -, ents, -, hst⟩ := hdel
    cases hst
    rfl

/-- **One entry after the other is disposed of.** The induction is on those that are still to
come; nothing else is alive. -/
theorem entriesDelSync_spec : ∀ {ids : List EntryId} {st : Store}, st.Kept ids → st.queue = [] →
    ids.Nodup → (∀ e ∈ ids, ∃ ent, st.ents.read e = some ent ∧ ent.Sound) →
    ∃ st', ids.foldlM entryDelSync st = some st' ∧ st'.Kept [] ∧ st'.queue = [] := by
  intro ids
  induction ids with
  | nil =>
    intro st h hq _ _
    exact ⟨st, rfl, h, hq⟩
  | cons e ids ih =>
    intro st h hq hn hlive
    obtain ⟨hnot, hn⟩ := List.nodup_cons.mp hn
    obtain ⟨ent, hread, hs⟩ := hlive e List.mem_cons_self
    obtain ⟨ents, ent', hdel, hget, hfreed, hspent⟩ := entryDelSync_spec hread hs
    have hlive' : ∀ j ∈ ids, ∃ ent, ents.read j = some ent ∧ ent.Sound := by
      intro j hj
      have hne : j ≠ e := fun hje => hnot (hje ▸ hj)
      rw [hget, if_neg hne]
      exact hlive j (List.mem_cons_of_mem _ hj)
    obtain ⟨st', hrun, h'⟩ := ih (h.dispose hspent hget hfreed) hq hn hlive'
    refine ⟨st', ?_, h'⟩
    rw [List.foldlM_cons, hdel]
    exact hrun

/-- **After the destructor nothing is alive**, in whichever order the works that were left are
done. -/
theorem implDestroy_spec (h : st.Models rel m) {order : List EntryId} (horder : order.Perm st.queue) :
    ∃ st', implDestroy order st = some st' ∧ st'.Kept [] ∧ st'.queue = [] := by
  obtain ⟨rows, h, -⟩ := h
  obtain ⟨st₁, hworks, h₁, hq⟩ := worksDone_spec h horder
  have hkept : st₁.Kept (st₁.db.nodes.map HNode.owner) := h₁.toKept.of_perm h₁.owners_perm.symm
  have hlive : ∀ e ∈ st₁.db.nodes.map HNode.owner, ∃ ent, st₁.ents.read e = some ent ∧ ent.Sound := by
    intro e he
    obtain ⟨r, hr, rfl⟩ := List.mem_map.mp (h₁.owners_perm.mem_iff.mp he)
    obtain ⟨ent, hread, -, hden⟩ := (h₁.shows r hr).live
    exact ⟨ent, hread, hden.sound⟩
  have hnodup := h₁.owners_perm.nodup_iff.mpr h₁.toRows.ids_nodup
  obtain ⟨st₃, hwalk, hnone, hq₃⟩ := entriesDelSync_spec hkept hq hnodup hlive
  -- the walk over both tables is one walk, with the second table read after the first walk
  rw [HMap.nodes, List.map_append, List.foldlM_append] at hwalk
  obtain ⟨st₂, hnewer, holder⟩ := Option.bind_eq_some_iff.mp hwalk
  have hdb : st₂.db = st₁.db := entriesDelSync_db hnewer
  refine ⟨{ st₃ with db := hmClear st₃.db }, ?_, hnone.congr rfl rfl, hq₃⟩
  rw [← destroyTable_eq h₁.index.ok.newer] at hnewer
  rw [← destroyTable_eq h₁.index.ok.older, ← hdb] at holder
  simp [implDestroy, hworks, hnewer, holder]

end Destroy

/-! ## 4. Whole runs

The events are those of `Proof/StoreRuns.lean`, and a worker that finishes any of the works that
wait, so that the queue may be emptied in any order.
-/

/-- What can happen to the entries: a request, a pass of the timers or one turn of it, a step of
the pool, or a worker that is done with any of the works. -/
inductive EntryEvent where
  | step (ev : TtlEvent)
  | done (e : EntryId)

def entryStep (strtod : Bytes → StrtodResult) (st : Store) : EntryEvent → Option Store
  | .step ev => ttlStep strtod st ev
  | .done e => workDone st e

theorem entryStep_models (strtod : Bytes → StrtodResult) {st : Store} {m : RefStore ZTree}
    (h : st.Models (· = ·) m) (ev : EntryEvent) :
    ∃ st' m', entryStep strtod st ev = some st' ∧ st'.Models (· = ·) m' := by
  cases ev with
  | step ev => exact ttlStep_models strtod h ev
  | done e =>
    obtain ⟨rows, h, hc⟩ := h
    obtain ⟨st', hrun, h', -⟩ := workDone_spec h e
    exact ⟨st', m, hrun, rows, h', hc⟩

/-- Every text is the number 0. -/
def zeroScores (s : Bytes) : StrtodResult := ⟨some .zero, s.length, false⟩

-- the entries in the order of their end, each with the nodes of its set in the order of theirs
example : ((do
    let st ← [EntryEvent.step (.call (.execute 1 1 [bytes "zadd", bytes "z", bytes "0", bytes "a"])),
      .step (.call (.execute 1 1 [bytes "zadd", bytes "z", bytes "0", bytes "b"])),
      .step (.call (.execute 2 2 [bytes "incr", bytes "n"])),
      .step (.call (.execute 2 2 [bytes "zrem", bytes "z", bytes "b"])),
      .step (.call (.execute 3 3 [bytes "del", bytes "n"]))].foldlM (entryStep zeroScores) {}
    implDestroy [] st).map fun st : Store =>
      st.ents.freed.map fun (x : EntryId × Entry) => (x.1, x.2.zset.nodes.freed.map Prod.fst)) =
        some [(1, []), (0, [1, 0])] := by decide +kernel

end ApexDB
