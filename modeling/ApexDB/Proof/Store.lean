import Mathlib.Data.Finmap
import ApexDB.Spec.RefStore
import ApexDB.Proof.Zset
import ApexDB.Proof.Timers

/-!
# The store holds a finite map

A `Row` says of one linked entry what the map has under its key. `Holds` is the invariant: the
hash map indexes exactly the rows, every row is what its entry and the heap show, what waits in
the queue of the pool is reachable from nowhere else, and nothing else is alive. `Models`
forgets the rows.

**Commands work on one key.** A lookup that hits brings the row of that key to the front
(`Focus`), and every later step of the command is said of that row, with the others as its
frame.

How sets are read is a parameter: `rel t z` says that the reading `z` is one of the tree `t`.

The order of the rows means nothing, and neither does the state of a migration: most functions
move one along, the lookups too. So each specification is for all stores that stand for a map,
and says that the store after it stands for one.
-/

set_option autoImplicit false

namespace ApexDB

open Lib

variable {Z : Type}

/-- A linked entry: its address, its key, and the value and deadline it stands for. -/
structure Row (Z : Type) where
  id : EntryId
  key : Bytes
  entry : RefEntry Z

/-- The entry stands for this value: a string for itself, and a set for a reading of the tree
that it holds. -/
def Entry.Denotes (rel : ZTree → Z → Prop) (ent : Entry) : RefValue Z → Prop
  | .str s => ent.type = .str ∧ ent.str = s ∧ ent.zset = {}
  | .zset z => ent.type = .zset ∧ ∃ ids t, ent.zset.Holds ids t ∧ rel t z

/-- The entry can be disposed of: its set is in order, and a string has none. -/
structure Entry.Sound (ent : Entry) : Prop where
  zset : ent.type = .zset → ∃ ids t, ent.zset.Holds ids t
  str : ent.type = .str → ent.zset = {}

/-- Every node that was ever made for the set of the entry has been freed, exactly once. -/
def Entry.Spent (ent : Entry) : Prop :=
  (ent.zset.nodes.freed.map Prod.fst).Perm (List.range ent.zset.nodes.next)

def Store.keyAt (st : Store) (e : EntryId) : Bytes := ((st.ents.read e).map Entry.key).getD []

/-- The entry and the heap show what the row says. -/
structure Store.Shows (rel : ZTree → Z → Prop) (st : Store) (r : Row Z) : Prop where
  live : ∃ ent, st.ents.read r.id = some ent ∧ ent.key = r.key ∧ ent.Denotes rel r.entry.value
  deadline : deadlineAt st.heap st.refs r.id = r.entry.deadline

/-- Everything but the hash map: the entries show the rows, no two rows have one key, only
entries of rows have a deadline, and what waits in the queue has left the rows. -/
structure Store.Rows (rel : ZTree → Z → Prop) (st : Store) (rows : List (Row Z)) : Prop where
  shows : ∀ r ∈ rows, st.Shows rel r
  keys : (rows.map Row.key).Nodup
  timers : Timers st.heap st.refs
  armed : ∀ e, st.refs e ≠ none → e ∈ rows.map Row.id
  waiting : ∀ e ∈ st.queue, e ∉ rows.map Row.id ∧ ∃ ent, st.ents.read e = some ent ∧ ent.Sound
  queue : st.queue.Nodup

/-- Nothing is alive but these entries and those in the queue, and what was disposed of has left
no node behind. -/
structure Store.Kept (st : Store) (ids : List EntryId) : Prop where
  owned : ∀ e ent, st.ents.read e = some ent → e ∈ ids ∨ e ∈ st.queue
  disposed : ∀ x ∈ st.ents.freed, x.2.Spent

/-- **The invariant of the store**: the rows are what the entries, the heap and the queue show,
and the hash map is an index of them. -/
structure Store.Holds (rel : ZTree → Z → Prop) (st : Store) (rows : List (Row Z)) : Prop
    extends st.Rows rel rows, st.Kept (rows.map Row.id) where
  index : st.db.Indexes strHash st.keyAt (rows.map Row.id)

/-- The map has exactly these rows. -/
def Contents (rows : List (Row Z)) (m : RefStore Z) : Prop :=
  ∀ key re, m.lookup key = some re ↔ ∃ r ∈ rows, r.key = key ∧ r.entry = re

/-- **The store stands for this map**, by some rows. Which rows these are, and in what order,
cannot be seen from outside. -/
def Store.Models (rel : ZTree → Z → Prop) (st : Store) (m : RefStore Z) : Prop :=
  ∃ rows, st.Holds rel rows ∧ Contents rows m

def Store.Focus (rel : ZTree → Z → Prop) (st : Store) (m : RefStore Z) (r : Row Z) : Prop :=
  ∃ rows, st.Holds rel (r :: rows) ∧ Contents (r :: rows) m

/-! ## 1. Rows and maps

A finite map and a list of rows with different keys, in both directions. These lemmas have no
store in them.
-/

section Contents

variable {rows rows' : List (Row Z)} {m : RefStore Z} {r r' : Row Z} {key : Bytes}

theorem Contents.of_perm (h : Contents rows m) (hp : rows.Perm rows') : Contents rows' m := by
  intro key re
  simp only [h key re, hp.mem_iff]

theorem Contents.lookup_head (h : Contents (r :: rows) m) : m.lookup r.key = some r.entry :=
  (h _ _).mpr ⟨r, List.mem_cons_self, rfl, rfl⟩

theorem Contents.lookup_none (h : Contents rows m) (hk : ∀ r ∈ rows, r.key ≠ key) :
    m.lookup key = none := by
  rw [Option.eq_none_iff_forall_ne_some]
  intro re hre
  obtain ⟨r, hr, hrk, -⟩ := (h key re).mp hre
  exact hk r hr hrk

theorem Contents.key_ne (h : Contents rows m) (hk : m.lookup key = none) :
    ∀ r ∈ rows, r.key ≠ key := by
  intro r hr hrk
  rw [(h key r.entry).mpr ⟨r, hr, hrk, rfl⟩] at hk
  cases hk

theorem Contents.insert (h : ∀ k re, k ≠ r.key →
      (m.lookup k = some re ↔ ∃ r ∈ rows, r.key = k ∧ r.entry = re))
    (hk : ∀ r' ∈ rows, r'.key ≠ r.key) : Contents (r :: rows) (m.insert r.key r.entry) := by
  intro k re
  by_cases hkr : k = r.key
  · subst hkr
    rw [Finmap.lookup_insert, Option.some_inj]
    constructor
    · intro hre
      exact ⟨r, List.mem_cons_self, rfl, hre⟩
    · rintro ⟨r', hr', hk', hre⟩
      rcases List.mem_cons.mp hr' with rfl | hr'
      · exact hre
      · exact absurd hk' (hk r' hr')
  · rw [Finmap.lookup_insert_of_ne _ hkr, h k re hkr]
    constructor
    · rintro ⟨r', hr', hk'⟩
      exact ⟨r', List.mem_cons_of_mem _ hr', hk'⟩
    · rintro ⟨r', hr', hk'⟩
      rcases List.mem_cons.mp hr' with rfl | hr'
      · exact absurd hk'.1.symm hkr
      · exact ⟨r', hr', hk'⟩

theorem Contents.tail (h : Contents (r :: rows) m) {k : Bytes} {re : RefEntry Z} (hkr : k ≠ r.key) :
    m.lookup k = some re ↔ ∃ r ∈ rows, r.key = k ∧ r.entry = re := by
  rw [h k re]
  constructor
  · rintro ⟨r', hr', hk'⟩
    rcases List.mem_cons.mp hr' with rfl | hr'
    · exact absurd hk'.1.symm hkr
    · exact ⟨r', hr', hk'⟩
  · rintro ⟨r', hr', hk'⟩
    exact ⟨r', List.mem_cons_of_mem _ hr', hk'⟩

theorem Contents.erase (h : Contents (r :: rows) m) (hk : ∀ r' ∈ rows, r'.key ≠ r.key) :
    Contents rows (m.erase r.key) := by
  intro k re
  by_cases hkr : k = r.key
  · subst hkr
    rw [Finmap.lookup_erase]
    exact ⟨nofun, fun ⟨r', hr', hk', _⟩ => absurd hk' (hk r' hr')⟩
  · rw [Finmap.lookup_erase_ne hkr]
    exact h.tail hkr

theorem insert_of_lookup {re : RefEntry Z} (h : m.lookup key = some re) : m.insert key re = m := by
  refine Finmap.ext_lookup fun k => ?_
  by_cases hk : k = key
  · rw [hk, Finmap.lookup_insert, h]
  · rw [Finmap.lookup_insert_of_ne _ hk]

end Contents

/-! ## 2. The invariant under permutations and changes of one row

The invariant is in parts because a command breaks one at a time: the rows without the hash map
(`Rows`), and what is alive (`Kept`). A write to one entry concerns the row of that entry, and
no other row can see it.
-/

section Rows

variable {rel : ZTree → Z → Prop} {st st' : Store} {rows rows' : List (Row Z)} {r r' : Row Z}
  {m : RefStore Z}

theorem Entry.Denotes.sound {ent : Entry} {v : RefValue Z} (h : ent.Denotes rel v) : ent.Sound := by
  cases v with
  | str s =>
    refine ⟨fun hz => ?_, fun _ => h.2.2⟩
    rw [h.1] at hz
    cases hz
  | zset z =>
    obtain ⟨htype, ids, t, ht, -⟩ := h
    refine ⟨fun _ => ⟨ids, t, ht⟩, fun hs => ?_⟩
    rw [htype] at hs
    cases hs

theorem Store.Shows.keyAt (h : st.Shows rel r) : st.keyAt r.id = r.key := by
  obtain ⟨ent, hread, hkey, -⟩ := h.live
  rw [Store.keyAt, hread, Option.map_some, Option.getD_some, hkey]

theorem Store.Rows.map_keyAt (h : st.Rows rel rows) :
    (rows.map Row.id).map st.keyAt = rows.map Row.key := by
  rw [List.map_map]
  exact List.map_congr_left fun r hr => (h.shows r hr).keyAt

theorem Store.Rows.ids_nodup (h : st.Rows rel rows) : (rows.map Row.id).Nodup := by
  apply List.Nodup.of_map st.keyAt
  rw [h.map_keyAt]
  exact h.keys

theorem Store.Rows.of_perm (h : st.Rows rel rows) (hp : rows.Perm rows') : st.Rows rel rows' where
  shows := fun r hr => h.shows r (hp.mem_iff.mpr hr)
  keys := (hp.map _).nodup_iff.mp h.keys
  timers := h.timers
  armed := fun e he => (hp.map _).mem_iff.mp (h.armed e he)
  waiting := fun e he => ⟨fun hmem => (h.waiting e he).1 ((hp.map _).mem_iff.mpr hmem),
    (h.waiting e he).2⟩
  queue := h.queue

theorem Store.Kept.of_perm {ids ids' : List EntryId} (h : st.Kept ids) (hp : ids.Perm ids') :
    st.Kept ids' :=
  ⟨fun e ent he => (h.owned e ent he).imp_left hp.mem_iff.mp, h.disposed⟩

theorem Store.Kept.congr {ids : List EntryId} (h : st.Kept ids) (hents : st'.ents = st.ents)
    (hqueue : st'.queue = st.queue) : st'.Kept ids := by
  constructor
  · rw [hents, hqueue]
    exact h.owned
  · rw [hents]
    exact h.disposed

theorem Store.Kept.write {ids : List EntryId} (h : st.Kept ids) {e : EntryId} {ent : Entry}
    {ents : Arena Entry} (hmem : e ∈ ids) (hrun : st.ents.write e ent = some ents) :
    Store.Kept { st with ents := ents } ids := by
  constructor
  · intro e' ent' he'
    by_cases heq : e' = e
    · exact .inl (heq ▸ hmem)
    · apply h.owned e' ent'
      rw [← Arena.read_write_of_ne hrun heq]
      exact he'
  · rw [show Store.ents _ = ents from rfl, Arena.freed_write hrun]
    exact h.disposed

theorem Store.Kept.alloc {ids : List EntryId} (h : st.Kept ids) (ent : Entry) :
    Store.Kept { st with ents := (st.ents.alloc ent).1 } (st.ents.next :: ids) := by
  refine ⟨fun e ent' he => ?_, h.disposed⟩
  rw [show Store.ents _ = (st.ents.alloc ent).1 from rfl, Arena.read_alloc] at he
  split at he
  · rename_i hen
    exact .inl (hen ▸ List.mem_cons_self)
  · exact (h.owned e ent' he).imp_left (List.mem_cons_of_mem _)

theorem Store.Holds.of_perm (h : st.Holds rel rows) (hp : rows.Perm rows') : st.Holds rel rows' :=
  ⟨h.toRows.of_perm hp, h.toKept.of_perm (hp.map _), h.index.of_perm (hp.map _)⟩

theorem Store.Rows.key_ne (h : st.Rows rel (r :: rows)) : ∀ r' ∈ rows, r'.key ≠ r.key := by
  intro r' hr' hk
  have := h.keys
  rw [List.map_cons, List.nodup_cons] at this
  exact this.1 (hk ▸ List.mem_map_of_mem hr')

theorem Store.Rows.id_ne (h : st.Rows rel (r :: rows)) : ∀ r' ∈ rows, r'.id ≠ r.id := by
  intro r' hr' hk
  have := h.ids_nodup
  rw [List.map_cons, List.nodup_cons] at this
  exact this.1 (hk ▸ List.mem_map_of_mem hr')

theorem Store.Rows.set_db (h : st.Rows rel rows) (db : HMap EntryId) :
    Store.Rows rel { st with db := db } rows where
  shows := fun r hr => ⟨(h.shows r hr).live, (h.shows r hr).deadline⟩
  keys := h.keys
  timers := h.timers
  armed := h.armed
  waiting := h.waiting
  queue := h.queue

/-- Keys are what the map is indexed by, so a store that shows the same keys has the same index.
-/
theorem Store.Rows.reindex (h : st.Rows rel rows) (h' : st'.Rows rel rows')
    (hid : rows'.map Row.id = rows.map Row.id) (hkey : rows'.map Row.key = rows.map Row.key)
    {db : HMap EntryId} (hi : db.Indexes strHash st.keyAt (rows.map Row.id)) :
    db.Indexes strHash st'.keyAt (rows'.map Row.id) := by
  rw [hid]
  refine hi.congr fun i hmem => ?_
  have heq : (rows.map Row.id).map st'.keyAt = (rows.map Row.id).map st.keyAt := by
    rw [← hid, h'.map_keyAt, hkey, hid, h.map_keyAt]
  exact (List.map_inj_left.mp heq) i hmem

/-- **The entry of one row is overwritten**, and the row with it. No other row shows that entry,
so the others are as they were. -/
theorem Store.Rows.write (h : st.Rows rel (r :: rows)) {ent : Entry} {v : RefValue Z}
    (hkey : ent.key = r.key) (hden : ent.Denotes rel v) :
    ∃ ents, st.ents.write r.id ent = some ents ∧ ents.read r.id = some ent ∧
      Store.Rows rel { st with ents := ents } (⟨r.id, r.key, ⟨v, r.entry.deadline⟩⟩ :: rows) := by
  have hr := h.shows r List.mem_cons_self
  obtain ⟨ent₀, hread, -, -⟩ := hr.live
  obtain ⟨ents, hrun, -, hget⟩ := Arena.write_spec hread ent
  refine ⟨ents, hrun, by rw [hget, if_pos rfl], ?_, h.keys, h.timers, h.armed, ?_, h.queue⟩
  · intro r' hr'
    rcases List.mem_cons.mp hr' with rfl | hr'
    · exact ⟨⟨ent, by rw [hget, if_pos rfl], hkey, hden⟩, hr.deadline⟩
    · obtain ⟨hlive, hdl⟩ := h.shows r' (List.mem_cons_of_mem _ hr')
      refine ⟨?_, hdl⟩
      rw [show Store.ents _ = ents from rfl, hget, if_neg (h.id_ne r' hr')]
      exact hlive
  · intro e he
    obtain ⟨hnot, hent⟩ := h.waiting e he
    have hne : e ≠ r.id := fun her => hnot (her ▸ List.mem_map_of_mem List.mem_cons_self)
    refine ⟨hnot, ?_⟩
    rw [show Store.ents _ = ents from rfl, hget, if_neg hne]
    exact hent

/-- **The deadline of one row is set or cleared**, in the heap and in the row. Other items may
have moved in the heap, and keep their deadlines. -/
theorem Store.Rows.setTtl (h : st.Rows rel (r :: rows)) (clk : Nat) (ttl : Int) :
    ∃ heap refs, entrySetTtl clk st r.id ttl = some { st with heap := heap, refs := refs } ∧
      Store.Rows rel { st with heap := heap, refs := refs }
        (⟨r.id, r.key, ⟨r.entry.value, newDeadline clk ttl⟩⟩ :: rows) ∧
      deadlineAt heap refs =
        Function.update (deadlineAt st.heap st.refs) r.id (newDeadline clk ttl) := by
  obtain ⟨heap, refs, hrun, ht, hd⟩ := entrySetTtl_spec h.timers clk r.id ttl
  refine ⟨heap, refs, hrun, ⟨?_, h.keys, ht, fun e he => ?_, h.waiting, h.queue⟩, hd⟩
  · intro r' hr'
    rcases List.mem_cons.mp hr' with rfl | hr'
    · refine ⟨(h.shows r List.mem_cons_self).live, ?_⟩
      rw [hd, Function.update_self]
    · have hr := h.shows r' (List.mem_cons_of_mem _ hr')
      refine ⟨hr.live, ?_⟩
      rw [hd, Function.update_of_ne (h.id_ne r' hr')]
      exact hr.deadline
  · by_cases hre : e = r.id
    · exact hre ▸ List.mem_map_of_mem List.mem_cons_self
    · apply h.armed
      rw [Ne, ← h.timers.deadline_none]
      rw [Ne, ← ht.deadline_none, hd, Function.update_of_ne hre] at he
      exact he

end Rows

/-! ## 3. A row in front

What a command does between its lookup and its reply. The map follows: a write is an `insert`
under the key of the row in front.
-/

section Focus

variable {rel : ZTree → Z → Prop} {st : Store} {m : RefStore Z} {e : EntryId} {key : Bytes}
  {re : RefEntry Z}

theorem Store.Focus.models {r : Row Z} (h : st.Focus rel m r) : st.Models rel m := by
  obtain ⟨rows, h, hc⟩ := h
  exact ⟨_, h, hc⟩

theorem Store.Focus.live {r : Row Z} (h : st.Focus rel m r) :
    ∃ ent, st.ents.read r.id = some ent ∧ ent.key = r.key ∧ ent.Denotes rel r.entry.value := by
  obtain ⟨rows, h, -⟩ := h
  exact (h.shows _ List.mem_cons_self).live

theorem Store.Focus.lookup {r : Row Z} (h : st.Focus rel m r) : m.lookup r.key = some r.entry := by
  obtain ⟨rows, -, hc⟩ := h
  exact hc.lookup_head

theorem Store.Focus.timers {r : Row Z} (h : st.Focus rel m r) : Timers st.heap st.refs := by
  obtain ⟨rows, h, -⟩ := h
  exact h.timers

theorem Store.Focus.deadline {r : Row Z} (h : st.Focus rel m r) :
    deadlineAt st.heap st.refs r.id = r.entry.deadline := by
  obtain ⟨rows, h, -⟩ := h
  exact (h.shows _ List.mem_cons_self).deadline

theorem Store.Focus.write (h : st.Focus rel m ⟨e, key, re⟩) (ent : Entry) (v : RefValue Z)
    (hkey : ent.key = key) (hden : ent.Denotes rel v) :
    ∃ ents, st.ents.write e ent = some ents ∧
      Store.Focus rel { st with ents := ents } (m.insert key ⟨v, re.deadline⟩)
        ⟨e, key, ⟨v, re.deadline⟩⟩ := by
  obtain ⟨rows, h, hc⟩ := h
  obtain ⟨ents, hrun, -, hrows⟩ := h.toRows.write hkey hden
  exact ⟨ents, hrun, rows,
    ⟨hrows, h.toKept.write List.mem_cons_self hrun, h.toRows.reindex hrows rfl rfl h.index⟩,
    Contents.insert (r := ⟨e, key, ⟨v, re.deadline⟩⟩) (fun _ _ hk => hc.tail hk) h.toRows.key_ne⟩

theorem Store.Focus.setTtl (h : st.Focus rel m ⟨e, key, re⟩) (clk : Nat) (ttl : Int) :
    ∃ st', entrySetTtl clk st e ttl = some st' ∧
      st'.Focus rel (m.insert key ⟨re.value, newDeadline clk ttl⟩)
        ⟨e, key, ⟨re.value, newDeadline clk ttl⟩⟩ := by
  obtain ⟨rows, h, hc⟩ := h
  obtain ⟨heap, refs, hrun, hrows, -⟩ := h.toRows.setTtl clk ttl
  exact ⟨_, hrun, rows,
    ⟨hrows, h.toKept.congr rfl rfl, h.toRows.reindex hrows rfl rfl h.index⟩,
    Contents.insert (r := ⟨e, key, ⟨re.value, newDeadline clk ttl⟩⟩) (fun _ _ hk => hc.tail hk)
      h.toRows.key_ne⟩

end Focus

/-! ## 4. The hash map

The three calls of `kv_store.cpp` on its hash map, each with the key looked up by the callback
`entry_eq`. A deletion takes the node out of the table only; that the heap has the entry still
is the state `Unlinked`, which `entry_del` ends.
-/

section Map

variable {rel : ZTree → Z → Prop} {st : Store} {rows : List (Row Z)} {m : RefStore Z}

theorem Store.models_empty (threads : Nat) : ({ threads := threads } : Store).Models rel ∅ := by
  refine ⟨[], ⟨⟨?_, List.nodup_nil, timers_empty, ?_, ?_, List.nodup_nil⟩, ⟨nofun, nofun⟩, .empty⟩, ?_⟩
  · intro r hr
    cases hr
  · intro e he
    exact absurd rfl he
  · intro e he
    cases he
  · intro key re
    rw [Finmap.lookup_empty]
    exact ⟨nofun, fun ⟨r, hr, _⟩ => absurd hr (by simp)⟩

/-- Comparing keys picks out the entry of that key. -/
theorem Store.Rows.entryEq_iff (h : st.Rows rel rows) (key : Bytes) : ∀ e ∈ rows.map Row.id,
    strHash (st.keyAt e) = strHash key ∧ entryEq st.ents key e = true ↔ st.keyAt e = key := by
  intro e he
  obtain ⟨r, hr, rfl⟩ := List.mem_map.mp he
  obtain ⟨ent, hread, -, -⟩ := (h.shows r hr).live
  simp only [Store.keyAt, entryEq, hread, Option.map_some, Option.getD_some, beq_iff_eq]
  exact ⟨fun h => h.2, fun h => ⟨by rw [h], h⟩⟩

theorem exists_perm_of_mem {e : EntryId} (he : e ∈ rows.map Row.id) :
    ∃ r rows', rows.Perm (r :: rows') ∧ r.id = e := by
  obtain ⟨r, hr, rfl⟩ := List.mem_map.mp he
  obtain ⟨as, bs, rfl⟩ := List.append_of_mem hr
  exact ⟨r, as ++ bs, List.perm_middle, rfl⟩

theorem Store.Rows.key_ne_of_miss (h : st.Rows rel rows) {key : Bytes}
    (hmiss : ∀ e ∈ rows.map Row.id, ¬st.keyAt e = key) : ∀ r ∈ rows, r.key ≠ key := by
  intro r hr hk
  exact hmiss r.id (List.mem_map_of_mem hr) ((h.shows r hr).keyAt.trans hk)

/-- **A lookup finds the row of the key, or the map has none.** The migration may have gone on,
which no row shows. -/
theorem dbLookup_spec (h : st.Models rel m) (key : Bytes) :
    (∃ st' e re, dbLookup st key = some (st', some e) ∧ m.lookup key = some re ∧
      st'.Focus rel m ⟨e, key, re⟩) ∨
    (∃ st', dbLookup st key = some (st', none) ∧ m.lookup key = none ∧ st'.Models rel m) := by
  obtain ⟨rows, h, hc⟩ := h
  obtain ⟨db, hi, ⟨e, hmem, hkey, hrun⟩ | ⟨hrun, hmiss⟩⟩ :=
    h.index.lookup (h.toRows.entryEq_iff key)
  · obtain ⟨⟨e, key', re⟩, rows', hp, rfl⟩ := exists_perm_of_mem hmem
    have hc' := hc.of_perm hp
    have h' : Store.Holds rel { st with db := db } rows :=
      ⟨h.toRows.set_db db, h.toKept.congr rfl rfl, hi⟩
    obtain rfl : key' = key :=
      ((h.toRows.shows _ (hp.mem_iff.mpr List.mem_cons_self)).keyAt).symm.trans hkey
    exact .inl ⟨_, e, re, by simp [dbLookup, hrun], hc'.lookup_head, rows', h'.of_perm hp, hc'⟩
  · exact .inr ⟨_, by simp [dbLookup, hrun], hc.lookup_none (h.toRows.key_ne_of_miss hmiss), rows,
      ⟨h.toRows.set_db db, h.toKept.congr rfl rfl, hi⟩, hc⟩

/-- An entry was taken out of the map; the heap still has it. -/
structure Store.Unlinked (rel : ZTree → Z → Prop) (st : Store) (r : Row Z) (rows : List (Row Z)) : Prop
    extends st.Rows rel (r :: rows), st.Kept ((r :: rows).map Row.id) where
  index : st.db.Indexes strHash st.keyAt (rows.map Row.id)

theorem Store.Holds.delete (h : st.Holds rel rows) (key : Bytes) :
    (∃ st' r rows', dbDelete st key = some (st', some r.id) ∧ r.key = key ∧
      rows.Perm (r :: rows') ∧ st'.Unlinked rel r rows') ∨
    (∃ st', dbDelete st key = some (st', none) ∧ (∀ r ∈ rows, r.key ≠ key) ∧ st'.Holds rel rows) := by
  rcases h.index.delete (h.toRows.entryEq_iff key) with
    ⟨db, e, ids, hrun, hkey, hperm, hi⟩ | ⟨db, hrun, hi, hmiss⟩
  · obtain ⟨r, rows', hp, rfl⟩ := exists_perm_of_mem (hperm.mem_iff.mpr List.mem_cons_self)
    have hids : ids.Perm (rows'.map Row.id) := (hperm.symm.trans (hp.map Row.id)).cons_inv
    have hrk := (h.toRows.shows r (hp.mem_iff.mpr List.mem_cons_self)).keyAt
    exact .inl ⟨_, r, rows', by simp [dbDelete, hrun], hrk.symm.trans hkey, hp,
      (h.toRows.of_perm hp).set_db db, (h.toKept.of_perm (hp.map _)).congr rfl rfl, hi.of_perm hids⟩
  · exact .inr ⟨_, by simp [dbDelete, hrun], h.toRows.key_ne_of_miss hmiss, h.toRows.set_db db,
      h.toKept.congr rfl rfl, hi⟩

/-- **A deletion takes out the row of the key, or the map has none.** -/
theorem dbDelete_spec (h : st.Models rel m) (key : Bytes) :
    (∃ st' r rows, dbDelete st key = some (st', some r.id) ∧ m.lookup key = some r.entry ∧
      st'.Unlinked rel r rows ∧ Contents rows (m.erase key)) ∨
    (∃ st', dbDelete st key = some (st', none) ∧ m.lookup key = none ∧ st'.Models rel m) := by
  obtain ⟨rows, h, hc⟩ := h
  rcases h.delete key with ⟨st', r, rows', hrun, rfl, hp, hout⟩ | ⟨st', hrun, hmiss, h'⟩
  · have hc' := hc.of_perm hp
    exact .inl ⟨st', r, rows', hrun, hc'.lookup_head, hout, hc'.erase hout.toRows.key_ne⟩
  · exact .inr ⟨st', hrun, hc.lookup_none hmiss, rows, h', hc⟩

/-- The row in front is the one taken out by its key. -/
theorem Store.Focus.delete {r : Row Z} (h : st.Focus rel m r) :
    ∃ st' rows, dbDelete st r.key = some (st', some r.id) ∧ st'.Unlinked rel r rows ∧
      Contents rows (m.erase r.key) := by
  obtain ⟨rows, h, hc⟩ := h
  rcases h.delete r.key with ⟨st', r', rows', hrun, hk, hp, hout⟩ | ⟨st', -, hmiss, -⟩
  · obtain rfl : r' = r := by
      rcases List.mem_cons.mp (hp.mem_iff.mpr List.mem_cons_self) with hr | hr
      · exact hr
      · exact absurd hk (h.toRows.key_ne r' hr)
    exact ⟨st', rows', hrun, hout, (hc.of_perm hp).erase hout.toRows.key_ne⟩
  · exact absurd rfl (hmiss r List.mem_cons_self)

/-- An address not handed out yet is mentioned nowhere. -/
theorem Store.Rows.next_not_mem (h : st.Rows rel rows) : st.ents.next ∉ rows.map Row.id := by
  intro hmem
  obtain ⟨r, hr, hid⟩ := List.mem_map.mp hmem
  obtain ⟨ent, hread, -, -⟩ := (h.shows r hr).live
  rw [hid, Arena.read_next] at hread
  cases hread

/-- **A new entry is linked**, at an address that was never used before, so that nothing refers
to it yet. -/
theorem dbInsert_spec (h : st.Models rel m) (ent : Entry) (v : RefValue Z)
    (hk : m.lookup ent.key = none) (hden : ent.Denotes rel v) :
    ∃ st' e, dbInsert st ent = some (st', e) ∧ st'.ents.read e = some ent ∧
      st'.Focus rel (m.insert ent.key ⟨v, none⟩) ⟨e, ent.key, ⟨v, none⟩⟩ := by
  obtain ⟨rows, h, hc⟩ := h
  have hfree := h.toRows.next_not_mem
  have hnone : st.refs st.ents.next = none := by
    by_contra he
    exact hfree (h.armed _ he)
  have hread : ∀ j, (st.ents.alloc ent).1.read j =
      if j = st.ents.next then some ent else st.ents.read j := Arena.read_alloc _ _
  have hlive : ∀ e ent', st.ents.read e = some ent' →
      (st.ents.alloc ent).1.read e = some ent' := by
    intro e ent' he
    have hne : e ≠ st.ents.next := Nat.ne_of_lt (Arena.lt_next he)
    rw [hread, if_neg hne, he]
  have hset : st.refs.set st.ents.next none = st.refs := by
    rw [HeapRefs.set, ← hnone, Function.update_eq_self]
  have hrows : ∀ db, Store.Rows rel { st with ents := (st.ents.alloc ent).1, db := db }
      (⟨st.ents.next, ent.key, ⟨v, none⟩⟩ :: rows) := by
    refine fun db => ⟨?_, ?_, h.timers, fun e he => List.mem_cons_of_mem _ (h.armed e he), ?_,
      h.queue⟩
    · intro r hr
      rcases List.mem_cons.mp hr with rfl | hr
      · exact ⟨⟨ent, by rw [hread, if_pos rfl], rfl, hden⟩, h.timers.deadline_none.mpr hnone⟩
      · obtain ⟨⟨ent', hent, hkd⟩, hdl⟩ := h.shows r hr
        exact ⟨⟨ent', hlive _ _ hent, hkd⟩, hdl⟩
    · rw [List.map_cons, List.nodup_cons]
      refine ⟨fun hmem => ?_, h.keys⟩
      obtain ⟨r, hr, hrk⟩ := List.mem_map.mp hmem
      exact hc.key_ne hk r hr hrk
    · intro e he
      obtain ⟨hnot, ent', hent, hs⟩ := h.waiting e he
      refine ⟨fun hmem => ?_, ent', hlive _ _ hent, hs⟩
      rcases List.mem_cons.mp hmem with hen | hmem
      · rw [hen, Arena.read_next] at hent
        cases hent
      · exact hnot hmem
  have hi : st.db.Indexes strHash
      (Store.keyAt { st with ents := (st.ents.alloc ent).1 }) (rows.map Row.id) := by
    refine h.index.congr fun e he => ?_
    obtain ⟨r, hr, rfl⟩ := List.mem_map.mp he
    rw [(h.shows r hr).keyAt]
    exact ((hrows st.db).shows r (List.mem_cons_of_mem _ hr)).keyAt
  obtain ⟨db, hrun, hi'⟩ := hi.insert st.ents.next
  have hnew : Store.keyAt { st with ents := (st.ents.alloc ent).1 } st.ents.next = ent.key :=
    ((hrows st.db).shows _ List.mem_cons_self).keyAt
  rw [hnew] at hrun
  refine ⟨{ st with ents := (st.ents.alloc ent).1, db := db }, st.ents.next, ?_,
    by rw [hread, if_pos rfl], rows, ⟨hrows db, (h.toKept.alloc ent).congr rfl rfl, hi'⟩,
    Contents.insert (r := ⟨st.ents.next, ent.key, ⟨v, none⟩⟩) (fun k re _ => hc k re)
      (hc.key_ne hk)⟩
  unfold dbInsert entryNew
  simp only [Arena.alloc_snd, hrun, hset, Option.bind_eq_bind, Option.bind_some]
  rfl

/-! ## 5. Disposal

An entry is freed at once, or handed over to the pool if its set is large. Either way it has
left the map and the heap before, so the rest of the store cannot tell the two apart.
-/

/-- **What `zset_clear` leaves of the set of an entry**, or what there was if the entry has
none. -/
theorem Entry.Sound.clear {ent : Entry} (h : ent.Sound) :
    ∃ zs, (if ent.type = .zset then zsetClear ent.zset else some ent.zset) = some zs ∧
      Entry.Spent { ent with zset := zs } := by
  cases htype : ent.type with
  | str =>
    refine ⟨ent.zset, rfl, ?_⟩
    rw [Entry.Spent, h.str htype]
    exact .refl _
  | zset =>
    obtain ⟨ids, t, ht⟩ := h.zset htype
    obtain ⟨zs, hrun, hnil⟩ := zsetClear_spec ht
    refine ⟨zs, hrun, Arena.freed_perm fun i => ?_⟩
    rw [Option.eq_none_iff_forall_ne_some]
    intro z hz
    exact absurd (hnil.only i z hz) (by simp)

theorem entryDelSync_spec {e : EntryId} {ent : Entry} (hread : st.ents.read e = some ent)
    (hs : ent.Sound) :
    ∃ ents ent', entryDelSync st e = some { st with ents := ents } ∧
      (∀ j, ents.read j = if j = e then none else st.ents.read j) ∧
      ents.freed = st.ents.freed ++ [(e, ent')] ∧ ent'.Spent := by
  obtain ⟨zs, hclear, hspent⟩ := hs.clear
  obtain ⟨ents₁, hwrite, -, hget₁⟩ := Arena.write_spec hread { ent with zset := zs }
  have hread₁ : ents₁.read e = some { ent with zset := zs } := by rw [hget₁, if_pos rfl]
  obtain ⟨ents, hfree, -, hget⟩ := Arena.free_spec hread₁
  refine ⟨ents, { ent with zset := zs }, ?_, fun j => ?_, ?_, hspent⟩
  · unfold entryDelSync
    simp [hread, hclear, hwrite, hfree]
  · rw [hget]
    split
    · rfl
    · rename_i hne
      rw [hget₁, if_neg hne]
  · rw [Arena.freed_free hread₁ hfree, Arena.freed_write hwrite]

theorem Store.Kept.dispose {e : EntryId} {ids : List EntryId} (h : st.Kept (e :: ids)) {ent : Entry}
    (hs : ent.Spent) {ents : Arena Entry}
    (hget : ∀ j, ents.read j = if j = e then none else st.ents.read j)
    (hfreed : ents.freed = st.ents.freed ++ [(e, ent)]) : Store.Kept { st with ents := ents } ids := by
  constructor
  · intro j ent' hj
    rw [show Store.ents _ = ents from rfl, hget] at hj
    split at hj
    · cases hj
    · rename_i hne
      exact (h.owned j ent' hj).imp_left fun hmem => (List.mem_cons.mp hmem).resolve_left hne
  · intro x hx
    rw [show Store.ents _ = ents from rfl, hfreed, List.mem_append, List.mem_singleton] at hx
    rcases hx with hx | rfl
    · exact h.disposed x hx
    · exact hs

theorem Store.Kept.enqueue {e : EntryId} {ids : List EntryId} (h : st.Kept (e :: ids)) :
    Store.Kept { st with queue := st.queue ++ [e] } ids := by
  refine ⟨fun j ent hj => ?_, h.disposed⟩
  show j ∈ ids ∨ j ∈ st.queue ++ [e]
  rw [List.mem_append, List.mem_singleton]
  rcases h.owned j ent hj with hmem | hmem
  · rcases List.mem_cons.mp hmem with rfl | hmem
    · exact .inr (.inr rfl)
    · exact .inl hmem
  · exact .inr (.inl hmem)

/-- Entries that no row mentions may be disposed of. -/
theorem Store.Rows.dispose (h : st.Rows rel rows) {e : EntryId} (he : e ∉ rows.map Row.id)
    (hq : e ∉ st.queue) {ents : Arena Entry}
    (hget : ∀ j, ents.read j = if j = e then none else st.ents.read j) :
    Store.Rows rel { st with ents := ents } rows := by
  have hkeep : ∀ j, j ≠ e → ents.read j = st.ents.read j := fun j hj => by rw [hget, if_neg hj]
  refine ⟨fun r hr => ?_, h.keys, h.timers, h.armed, fun j hj => ?_, h.queue⟩
  · have hne : r.id ≠ e := fun hre => he (hre ▸ List.mem_map_of_mem hr)
    obtain ⟨hlive, hdl⟩ := h.shows r hr
    refine ⟨?_, hdl⟩
    rw [show Store.ents _ = ents from rfl, hkeep _ hne]
    exact hlive
  · have hne : j ≠ e := fun hje => hq (hje ▸ hj)
    rw [show Store.ents _ = ents from rfl, hkeep _ hne]
    exact h.waiting j hj

/-- Entries that no row mentions may wait in the queue. -/
theorem Store.Rows.enqueue (h : st.Rows rel rows) {e : EntryId} {ent : Entry}
    (he : e ∉ rows.map Row.id) (hq : e ∉ st.queue) (hread : st.ents.read e = some ent)
    (hs : ent.Sound) : Store.Rows rel { st with queue := st.queue ++ [e] } rows := by
  refine ⟨fun r hr => ⟨(h.shows r hr).live, (h.shows r hr).deadline⟩, h.keys, h.timers, h.armed,
    fun j hj => ?_, ?_⟩
  · rcases List.mem_append.mp hj with hj | hj
    · exact h.waiting j hj
    · rw [List.mem_singleton.mp hj]
      exact ⟨he, ent, hread, hs⟩
  · rw [List.nodup_append]
    refine ⟨h.queue, by simp, fun a ha b hb => ?_⟩
    rw [List.mem_singleton.mp hb]
    exact fun hab => hq (hab ▸ ha)

/-- A row whose deadline is cleared may be forgotten. -/
theorem Store.Rows.forget {r : Row Z} (h : st.Rows rel (r :: rows))
    (hd : r.entry.deadline = none) : st.Rows rel rows := by
  have hkeys := h.keys
  rw [List.map_cons, List.nodup_cons] at hkeys
  refine ⟨fun r' hr' => h.shows r' (List.mem_cons_of_mem _ hr'), hkeys.2, h.timers, fun e he => ?_,
    fun e he => ⟨fun hmem => (h.waiting e he).1 (List.mem_cons_of_mem _ hmem), (h.waiting e he).2⟩,
    h.queue⟩
  rcases List.mem_cons.mp (h.armed e he) with her | hmem
  · have := (h.shows r List.mem_cons_self).deadline
    rw [hd, ← her, h.timers.deadline_none] at this
    exact absurd this he
  · exact hmem

/-- **`entry_del` clears the deadline and disposes of the entry, or queues it.** It is then
linked from nowhere. -/
theorem entryDel_spec {r : Row Z} (h : st.Unlinked rel r rows) :
    ∃ st', entryDel st r.id = some st' ∧ st'.Holds rel rows ∧
      (st'.ents.read r.id = none ∨ r.id ∈ st'.queue) ∧
      deadlineAt st'.heap st'.refs =
        Function.update (deadlineAt st.heap st.refs) r.id none := by
  obtain ⟨heap, refs, hrun, hrows, hd⟩ := h.toRows.setTtl 0 (-1)
  have hnew : newDeadline 0 (-1) = none := rfl
  rw [hnew] at hrows hd
  have hnot : r.id ∉ rows.map Row.id := by
    intro hmem
    obtain ⟨r', hr', hid⟩ := List.mem_map.mp hmem
    exact h.toRows.id_ne r' hr' hid
  have hq : r.id ∉ st.queue := fun hmem => (h.waiting _ hmem).1 List.mem_cons_self
  obtain ⟨ent, hread, -, hden⟩ := (h.shows r List.mem_cons_self).live
  have hfor := hrows.forget rfl
  unfold entryDel
  simp only [hrun, hread, Option.bind_eq_bind, Option.bind_some]
  by_cases hbig : kLargeContainerSize < (if ent.type = .zset then hmSize ent.zset.hmap else 0) ∧
      0 < st.threads
  · -- the pool takes it: the entry stays live, in the queue only
    rw [if_pos hbig]
    exact ⟨_, rfl, ⟨hfor.enqueue hnot hq hread hden.sound, h.toKept.enqueue.congr rfl rfl, h.index⟩,
      .inr (by simp), hd⟩
  · rw [if_neg hbig]
    obtain ⟨ents, ent', hdel, hget, hfreed, hspent⟩ :=
      @entryDelSync_spec { st with heap := heap, refs := refs } _ _ hread hden.sound
    refine ⟨_, hdel, ⟨hfor.dispose hnot hq hget, ?_, ?_⟩, .inl (by rw [hget, if_pos rfl]), hd⟩
    · exact (h.toKept.dispose hspent hget hfreed).congr rfl rfl
    · exact hfor.reindex (hfor.dispose hnot hq hget) rfl rfl h.index

/-- One work of the queue is taken and run. -/
theorem Store.Holds.finish (h : st.Holds rel rows) {e : EntryId} {queue : List EntryId}
    (hq : st.queue.Perm (e :: queue)) :
    ∃ st', entryDelSync { st with queue := queue } e = some st' ∧ st'.Holds rel rows ∧
      st'.queue = queue ∧ st'.db = st.db := by
  obtain ⟨hfirst, hn⟩ := List.nodup_cons.mp (hq.nodup_iff.mp h.queue)
  have hmem : ∀ j, j ∈ queue → j ∈ st.queue := fun j hj => hq.mem_iff.mpr (List.mem_cons_of_mem _ hj)
  obtain ⟨hnot, ent, hread, hs⟩ := h.waiting e (hq.mem_iff.mpr List.mem_cons_self)
  have hrows : Store.Rows rel { st with queue := queue } rows :=
    ⟨fun r hr => ⟨(h.shows r hr).live, (h.shows r hr).deadline⟩, h.keys, h.timers, h.armed,
      fun j hj => h.waiting j (hmem j hj), hn⟩
  have hkept : Store.Kept { st with queue := queue } (e :: rows.map Row.id) := by
    refine ⟨fun j ent' hj => ?_, h.disposed⟩
    rcases h.owned j ent' hj with hrow | hwait
    · exact .inl (List.mem_cons_of_mem _ hrow)
    · rcases List.mem_cons.mp (hq.mem_iff.mp hwait) with rfl | hwait
      · exact .inl List.mem_cons_self
      · exact .inr hwait
  obtain ⟨ents, ent', hdel, hget, hfreed, hspent⟩ :=
    @entryDelSync_spec { st with queue := queue } _ _ hread hs
  have hrows' := hrows.dispose hnot hfirst hget
  exact ⟨_, hdel, ⟨hrows', hkept.dispose hspent hget hfreed, hrows.reindex hrows' rfl rfl h.index⟩, rfl, rfl⟩

/-- **A worker of the pool changes nothing that is linked**, so the store stands for the same
map. -/
theorem work_spec (h : st.Models rel m) : ∃ st', work st = some st' ∧ st'.Models rel m := by
  obtain ⟨rows, h, hc⟩ := h
  unfold work
  cases hq : st.queue with
  | nil => exact ⟨st, rfl, rows, h, hc⟩
  | cons e queue =>
    obtain ⟨st', hdel, h', -⟩ := h.finish (List.Perm.of_eq hq)
    exact ⟨st', hdel, rows, h', hc⟩

end Map

end ApexDB
