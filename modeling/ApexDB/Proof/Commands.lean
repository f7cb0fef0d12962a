import ApexDB.Proof.Codec
import ApexDB.Proof.Store

/-!
# Every command answers what the map answers

One theorem for each command of `src/kv_store.cpp`, all of one shape (`Answers`): from a store
that stands for a map, the command returns, appends one value that is a right answer for that
map, and leaves a store that stands for the map the command should leave.

Every proof has the shape of its command. It looks the key up, splits on what was found, and
follows the branch: a missing key, a key of the wrong type, or the entry in front. Errors are
values too, so the branches that answer with one are proved in the same way as the others.
-/

set_option autoImplicit false

namespace ApexDB

open Lib BinaryTree

variable {Z : Type}

/-- What a reading of sorted sets must get right: each operation on trees is the one of the
reading, and a range query is its range where the reading is exact. -/
structure Reading.Sound (R : Reading Z) (rel : ZTree → Z → Prop) : Prop where
  empty : rel nil R.empty
  score : ∀ {t z}, rel t z → t.Ok → ∀ name, R.score z name = (t.find name).map ZNode.score
  add : ∀ {t z}, rel t z → t.Ok → ∀ name score, rel (t.add name score) (R.add z name score)
  erase : ∀ {t z}, rel t z → t.Ok → ∀ name, rel (t.erase name) (R.erase z name)
  query : ∀ {t z}, rel t z → t.Ok → R.exact z → ∀ score name offset limit,
    R.query z score name offset limit = t.query score name offset limit
  deadline : ∀ clk ttl, R.deadline clk ttl = (clk + ttl) % 2 ^ 64

/-- **The command returns, answers right, and leaves the right map.** -/
def Answers (rel : ZTree → Z → Prop) (out : Buffer) (run : Option (Store × Buffer))
    (want : RefStore Z × Expected) : Prop :=
  ∃ st' v, run = some (st', out ++ v.encode) ∧ want.2.Admits v ∧ st'.Models rel want.1

variable {rel : ZTree → Z → Prop} {st : Store} {m m' : RefStore Z} {out : Buffer}

theorem Answers.value {run : Option (Store × Buffer)} {v : Value} (hrun : run = some (st, out ++ v.encode))
    (h : st.Models rel m) : Answers rel out run (m, .value v) :=
  ⟨st, v, hrun, rfl, h⟩

/-! ## 1. Strings and keys

These read and write one entry, and the reading of sorted sets does not matter for them, except
that `expire` asks it how a deadline is computed. `keys` walks over the whole hash map and so
answers in an order that depends on the tables.
-/

theorem doGet_spec (h : st.Models rel m) (key : Bytes) :
    Answers rel out (doGet st key out) (m, .value (match m.lookup key with
      | none => .nil
      | some ⟨.str s, _⟩ => .str s
      | some ⟨.zset _, _⟩ => .ofErr .badTyp "not a string value")) := by
  rcases dbLookup_spec h key with ⟨st', e, ⟨v, d⟩, hrun, hm, hf⟩ | ⟨st', hrun, hm, h'⟩
  · obtain ⟨ent, hread, -, hden⟩ := hf.live
    rw [hm]
    cases v with
    | str s => exact .value (by simp [doGet, hrun, hread, hden.1, hden.2, outStr_eq]) hf.models
    | zset z => exact .value (by simp [doGet, hrun, hread, hden.1, outErr_eq]) hf.models
  · rw [hm]
    exact .value (by simp [doGet, hrun, outNil_eq]) h'

theorem doExists_spec (h : st.Models rel m) (key : Bytes) :
    Answers rel out (doExists st key out)
      (m, .value (.int (if (m.lookup key).isSome then 1 else 0))) := by
  rcases dbLookup_spec h key with ⟨st', e, re, hrun, hm, hf⟩ | ⟨st', hrun, hm, h'⟩
  · exact .value (by simp [doExists, hrun, hm, outInt_eq]) hf.models
  · exact .value (by simp [doExists, hrun, hm, outInt_eq]) h'

theorem Entry.Denotes.typeName_eq {ent : Entry} {v : RefValue Z} (h : ent.Denotes rel v) :
    typeName (some ent) = v.typeName := by
  cases v <;> simp [typeName, RefValue.typeName, h.1]

theorem doType_spec (h : st.Models rel m) (key : Bytes) :
    Answers rel out (doType st key out)
      (m, .value (.str (match m.lookup key with
        | none => bytes "none"
        | some e => e.value.typeName))) := by
  rcases dbLookup_spec h key with ⟨st', e, re, hrun, hm, hf⟩ | ⟨st', hrun, hm, h'⟩
  · obtain ⟨ent, hread, -, hden⟩ := hf.live
    rw [hm]
    exact .value (by simp [doType, hrun, hread, hden.typeName_eq, outStr_eq]) hf.models
  · rw [hm]
    exact .value (by simp [doType, hrun, typeName, outStr_eq]) h'

theorem Store.Focus.clearTtl_none {e : EntryId} {key : Bytes} {v : RefValue Z}
    (h : st.Focus rel m ⟨e, key, ⟨v, none⟩⟩) :
    ∃ st', entrySetTtl 0 st e (-1) = some st' ∧ st'.Models rel m := by
  obtain ⟨st', hrun, hf⟩ := h.setTtl 0 (-1)
  have hm := insert_of_lookup h.lookup
  refine ⟨st', hrun, ?_⟩
  rw [← hm]
  exact hf.models

theorem doPersist_spec (h : st.Models rel m) (key : Bytes) :
    Answers rel out (doPersist st key out)
      (match m.lookup key with
      | some ⟨v, some _⟩ => (m.insert key ⟨v, none⟩, .value (.int 1))
      | _ => (m, .value (.int 0))) := by
  rcases dbLookup_spec h key with ⟨st', e, ⟨v, d⟩, hrun, hm, hf⟩ | ⟨st', hrun, hm, h'⟩
  · rw [hm]
    cases d with
    | none =>
      have hnone : st'.refs e = none := hf.timers.deadline_none.mp hf.deadline
      exact .value (by simp [doPersist, hrun, hnone, outInt_eq]) hf.models
    | some d =>
      have hsome : (st'.refs e).isSome := by
        rw [Option.isSome_iff_ne_none, Ne, ← hf.timers.deadline_none, hf.deadline]
        simp
      obtain ⟨st'', httl, hf'⟩ := hf.setTtl 0 (-1)
      exact .value (by simp [doPersist, hrun, hsome, httl, outInt_eq]) hf'.models
  · rw [hm]
    exact .value (by simp [doPersist, hrun, outInt_eq]) h'

theorem doIncr_spec (h : st.Models rel m) (key : Bytes) :
    Answers rel out (doIncr st key out) (refIncr m key) := by
  unfold refIncr
  rcases dbLookup_spec h key with ⟨st', e, ⟨v, d⟩, hrun, hm, hf⟩ | ⟨st', hrun, hm, h'⟩
  · obtain ⟨ent, hread, hkey, hden⟩ := hf.live
    rw [hm]
    cases v with
    | zset z => exact .value (by simp [doIncr, hrun, hread, hden.1, outErr_eq]) hf.models
    | str s =>
      obtain ⟨htype, rfl, hzset⟩ := hden
      cases hv : str2int ent.str with
      | none =>
        simp only [hv]
        exact .value (by simp [doIncr, hrun, hread, htype, hv, outErr_eq]) hf.models
      | some v =>
        simp only [hv]
        by_cases hmax : v = 2 ^ 63 - 1
        · rw [if_pos hmax]
          exact .value (by simp [doIncr, hrun, hread, htype, hv, hmax, outErr_eq]) hf.models
        · rw [if_neg hmax]
          obtain ⟨ents, hw, hf'⟩ := hf.write { ent with str := toDecimal (v + 1) }
            (.str (toDecimal (v + 1))) hkey ⟨htype, rfl, hzset⟩
          simp only [htype] at hw
          refine .value ?_ hf'.models
          simp only [doIncr, hrun, hread, htype, hv, hw, if_neg hmax, outInt_eq, ne_eq,
            not_true_eq_false, if_false, Option.bind_eq_bind, Option.bind_some]
          rfl
  · rw [hm]
    obtain ⟨st'', e, hins, -, hf⟩ := dbInsert_spec h'
      { key := key, type := .str, str := toDecimal 1 } (.str (toDecimal 1)) hm ⟨rfl, rfl, rfl⟩
    exact .value (by simp [doIncr, hrun, hins, outInt_eq]) hf.models

theorem doSet_spec (h : st.Models rel m) (key val : Bytes) :
    Answers rel out (doSet st key val out)
      (match m.lookup key with
      | some ⟨.zset _, _⟩ => (m, .value (.ofErr .badTyp "a non-string value exists"))
      | _ => (m.insert key ⟨.str val, none⟩, .value (.str (bytes "OK")))) := by
  rcases dbLookup_spec h key with ⟨st', e, ⟨v, d⟩, hrun, hm, hf⟩ | ⟨st', hrun, hm, h'⟩
  · obtain ⟨ent, hread, hkey, hden⟩ := hf.live
    rw [hm]
    cases v with
    | zset z => exact .value (by simp [doSet, hrun, hread, hden.1, outErr_eq]) hf.models
    | str s =>
      obtain ⟨ents, hw, hf'⟩ := hf.write { ent with str := val } (.str val) hkey
        ⟨hden.1, rfl, hden.2.2⟩
      obtain ⟨st'', httl, hf''⟩ := hf'.setTtl 0 (-1)
      rw [Finmap.insert_insert] at hf''
      simp only [hden.1] at hw
      refine .value ?_ hf''.models
      simp [doSet, hrun, hread, hden.1, hw, httl, outStr_eq]
  · rw [hm]
    obtain ⟨st'', e, hins, -, hf⟩ := dbInsert_spec h'
      { key := key, type := .str, str := val } (.str val) hm ⟨rfl, rfl, rfl⟩
    obtain ⟨st₃, httl, h₃⟩ := hf.clearTtl_none
    exact .value (by simp [doSet, hrun, hins, httl, outStr_eq]) h₃

theorem erase_of_lookup_none {key : Bytes} (h : m.lookup key = none) : m.erase key = m := by
  refine Finmap.ext_lookup fun k => ?_
  by_cases hk : k = key
  · rw [hk, Finmap.lookup_erase, h]
  · rw [Finmap.lookup_erase_ne hk]

theorem doDel_spec (h : st.Models rel m) (key : Bytes) :
    Answers rel out (doDel st key out)
      (m.erase key, .value (.int (if (m.lookup key).isSome then 1 else 0))) := by
  rcases dbDelete_spec h key with ⟨st', r, rows, hrun, hm, hout, hc⟩ | ⟨st', hrun, hm, h'⟩
  · obtain ⟨st'', hdel, h'', -⟩ := entryDel_spec hout
    exact .value (by simp [doDel, hrun, hm, hdel, outInt_eq]) ⟨rows, h'', hc⟩
  · rw [erase_of_lookup_none hm]
    exact .value (by simp [doDel, hrun, hm, outInt_eq]) h'

theorem doExpire_spec {R : Reading Z} (hR : R.Sound rel) (h : st.Models rel m) (clk : Nat)
    (key arg : Bytes) :
    Answers rel out (doExpire clk st key arg out) (refExpire R clk m key arg) := by
  unfold refExpire doExpire
  cases str2int arg with
  | none => exact .value (by simp [outErr_eq]) h
  | some ttl =>
    rcases dbLookup_spec h key with ⟨st', e, ⟨v, d⟩, hrun, hm, hf⟩ | ⟨st', hrun, hm, h'⟩
    · simp only [hm]
      by_cases hle : ttl ≤ 0
      · rw [if_pos hle]
        obtain ⟨st₂, rows, hrun₂, hout, hc⟩ := hf.delete
        obtain ⟨st₃, hdel, h₃, -⟩ := entryDel_spec hout
        exact .value (by simp [hrun, hle, hrun₂, hdel, outInt_eq]) ⟨rows, h₃, hc⟩
      · rw [if_neg hle]
        obtain ⟨st'', httl, hf'⟩ := hf.setTtl clk ttl
        have hnew : newDeadline clk ttl = some (R.deadline clk ttl.toNat) := by
          rw [newDeadline, if_neg (by omega), hR.deadline]
        rw [hnew] at hf'
        exact .value (by simp [hrun, hle, httl, outInt_eq]) hf'.models
    · simp only [hm]
      exact .value (by simp [hrun, outInt_eq]) h'

theorem doTtl_spec (h : st.Models rel m) (clk : Nat) (key : Bytes) :
    Answers rel out (doTtl clk st key out)
      (m, .value (.int (match m.lookup key with
        | none => -2
        | some ⟨_, none⟩ => -1
        | some ⟨_, some d⟩ => remaining clk d))) := by
  rcases dbLookup_spec h key with ⟨st', e, ⟨v, d⟩, hrun, hm, hf⟩ | ⟨st', hrun, hm, h'⟩
  · rw [hm]
    cases d with
    | none =>
      have hnone : st'.refs e = none := hf.timers.deadline_none.mp hf.deadline
      exact .value (by simp [doTtl, hrun, hnone, outInt_eq]) hf.models
    | some d =>
      -- the position in the entry is in range, and the item there is the entry's own
      obtain ⟨i, hi, hd⟩ := Option.bind_eq_some_iff.mp hf.deadline
      obtain ⟨item, hitem, rfl⟩ := Option.map_eq_some_iff.mp hd
      refine .value ?_ hf.models
      simp only [] at hi
      simp [doTtl, hrun, hi, hitem, outInt_eq, remaining]
  · rw [hm]
    exact .value (by simp [doTtl, hrun, outInt_eq]) h'

/-- The walk of `cb_keys` over live entries. -/
theorem cbKeys_foldl : ∀ (es : List EntryId) (out : Buffer), (∀ e ∈ es, (st.ents.read e).isSome) →
    es.foldl (fun out e => (cbKeys st.ents out e).1) (some out) =
      some (out ++ Value.encodeAll ((es.map st.keyAt).map .str)) := by
  intro es
  induction es with
  | nil => intro out _; simp [Value.encodeAll]
  | cons e es ih =>
    intro out hlive
    obtain ⟨ent, hent⟩ := Option.isSome_iff_exists.mp (hlive e List.mem_cons_self)
    have hstep : (cbKeys st.ents (some out) e).1 = some (out ++ (Value.str ent.key).encode) := by
      simp [cbKeys, hent, outStr_eq]
    rw [List.foldl_cons, hstep, ih _ fun e' he' => hlive e' (List.mem_cons_of_mem _ he')]
    simp [Store.keyAt, hent, Value.encodeAll]

theorem doKeys_spec (h : st.Models rel m) : Answers rel out (doKeys st out) (m, .keys m.keys) := by
  obtain ⟨rows, h, hc⟩ := h
  have hperm : (st.db.nodes.map HNode.owner).Perm (rows.map Row.id) := by
    have hp := h.index.nodes.map HNode.owner
    rwa [List.map_map, show HNode.owner ∘ _ = id from rfl, List.map_id] at hp
  have hlive : ∀ e ∈ st.db.nodes.map HNode.owner, (st.ents.read e).isSome := by
    intro e he
    obtain ⟨r, hr, rfl⟩ := List.mem_map.mp (hperm.mem_iff.mp he)
    obtain ⟨ent, hread, -, -⟩ := (h.shows r hr).live
    rw [hread]
    rfl
  have hkeys : ((st.db.nodes.map HNode.owner).map st.keyAt).Perm (rows.map Row.key) := by
    rw [← h.toRows.map_keyAt]
    exact hperm.map _
  have hrun := hmForeach_spec h.index.ok (fun out e => (cbKeys st.ents out e).1)
    (some (outArr out (hmSize st.db)))
  rw [cbKeys_foldl _ _ hlive, h.index.ok.size_nodes] at hrun
  refine ⟨st, .arr (((st.db.nodes.map HNode.owner).map st.keyAt).map .str), ?_,
    ⟨_, rfl, hkeys.nodup_iff.mpr h.keys, ?_⟩, rows, h, hc⟩
  · have hf : cbKeys st.ents = fun out e => ((cbKeys st.ents out e).1, true) := rfl
    rw [doKeys, hf, h.index.ok.size_nodes, hrun, ← outArr_eq]
    simp
  · ext key
    rw [List.mem_toFinset, hkeys.mem_iff, Finmap.mem_keys, Finmap.mem_iff, List.mem_map]
    constructor
    · rintro ⟨r, hr, rfl⟩
      exact ⟨r.entry, (hc _ _).mpr ⟨r, hr, rfl, rfl⟩⟩
    · rintro ⟨re, hre⟩
      obtain ⟨r, hr, hrk, -⟩ := (hc _ _).mp hre
      exact ⟨r, hr, hrk⟩

/-! ## 2. Sorted sets

A set is taken out of its entry, changed by a function of `zset.cpp` and written back. For a
missing key the source works on a static empty set; a lookup in it returns nothing and leaves it
empty.
-/

/-- The entry in front is a set, and another set takes its place. -/
theorem Store.Focus.write_zset {e : EntryId} {key : Bytes} {z z' : Z} {d : Option Nat} {ent : Entry}
    (h : st.Focus rel m ⟨e, key, ⟨.zset z, d⟩⟩) (hread : st.ents.read e = some ent) {zs : ZSet}
    {ids : BinaryTree NodeId} {t : ZTree} (hz : zs.Holds ids t) (hrel : rel t z') :
    ∃ ents, st.ents.write e { ent with zset := zs } = some ents ∧
      Store.Models rel { st with ents := ents } (m.insert key ⟨.zset z', d⟩) := by
  obtain ⟨ent', hread', hkey, hden⟩ := h.live
  obtain rfl : ent' = ent := Option.some.inj (hread'.symm.trans hread)
  obtain ⟨ents, hw, hf⟩ := h.write { ent' with zset := zs } (.zset z') hkey ⟨hden.1, ids, t, hz, hrel⟩
  exact ⟨ents, hw, hf.models⟩

theorem doZadd_spec {R : Reading Z} (hR : R.Sound rel) (strtod : Bytes → StrtodResult)
    (h : st.Models rel m) (key arg name : Bytes) :
    Answers rel out (doZadd strtod st key arg name out) (refZadd R strtod m key arg name) := by
  unfold refZadd doZadd
  cases str2dbl strtod arg with
  | none => exact .value (by simp [outErr_eq]) h
  | some score =>
    rcases dbLookup_spec h key with ⟨st', e, ⟨v, d⟩, hrun, hm, hf⟩ | ⟨st', hrun, hm, h'⟩
    · simp only [hm]
      obtain ⟨ent, hread, -, hden⟩ := hf.live
      cases v with
      | str s => exact .value (by simp [hrun, hread, hden.1, outErr_eq]) hf.models
      | zset z =>
        obtain ⟨htype, ids, t, hz, hrel⟩ := hden
        obtain ⟨zs', ids', hins, hz'⟩ := zsetInsert_spec hz name score
        obtain ⟨ents, hw, h'⟩ := hf.write_zset hread hz' (hR.add hrel hz.ok name score)
        have hscore := hR.score hrel hz.ok name
        refine .value ?_ h'
        simp only [] at hread
        simp only [hrun, hread, htype, hins, Option.bind_eq_bind, Option.bind_some, ne_eq,
          not_true_eq_false, if_false, hscore, Option.isNone_map, outInt_eq]
        simp only [htype] at hw
        rw [hw]
        rfl
    · simp only [hm]
      obtain ⟨st'', e, hins, hread, hf⟩ := dbInsert_spec h' { key := key, type := .zset }
        (.zset R.empty) hm ⟨rfl, nil, nil, ZSet.holds_empty, hR.empty⟩
      obtain ⟨zs', ids', hadd, hz'⟩ := zsetInsert_spec ZSet.holds_empty name score
      obtain ⟨ents, hw, h''⟩ := hf.write_zset hread hz' (hR.add hR.empty ZTree.ok_nil name score)
      rw [Finmap.insert_insert] at h''
      refine .value ?_ h''
      simp only [hrun, hins, hread, hadd, hw, Option.bind_eq_bind, Option.bind_some, ne_eq,
        not_true_eq_false, if_false, outInt_eq]
      rfl

/-- **`expect_zset`**: the empty set, a string, or the set in front. -/
theorem expectZset_spec (h : st.Models rel m) (key : Bytes) :
    (∃ st', expectZset st key = some (st', .emptyZset) ∧ m.lookup key = none ∧ st'.Models rel m) ∨
    (∃ st' s d, expectZset st key = some (st', .null) ∧ m.lookup key = some ⟨.str s, d⟩ ∧
      st'.Models rel m) ∨
    (∃ st' e ent z d ids t, expectZset st key = some (st', .entry e ent) ∧
      m.lookup key = some ⟨.zset z, d⟩ ∧ st'.Focus rel m ⟨e, key, ⟨.zset z, d⟩⟩ ∧
      st'.ents.read e = some ent ∧ ent.zset.Holds ids t ∧ rel t z) := by
  rcases dbLookup_spec h key with ⟨st', e, ⟨v, d⟩, hrun, hm, hf⟩ | ⟨st', hrun, hm, h'⟩
  · obtain ⟨ent, hread, -, hden⟩ := hf.live
    cases v with
    | str s =>
      exact .inr (.inl ⟨st', s, d, by simp [expectZset, hrun, hread, hden.1], hm, hf.models⟩)
    | zset z =>
      obtain ⟨htype, ids, t, hz, hrel⟩ := hden
      exact .inr (.inr ⟨st', e, ent, z, d, ids, t, by simp [expectZset, hrun, hread, htype], hm, hf,
        hread, hz, hrel⟩)
  · exact .inl ⟨st', by simp [expectZset, hrun], hm, h'⟩

/-- For a command that only reads: the set it works on, and that putting the same set back in
another state of migration is harmless. -/
theorem expectZset_read {R : Reading Z} (hR : R.Sound rel) (h : st.Models rel m) (key : Bytes) :
    (∃ st', expectZset st key = some (st', .null) ∧ refZset R m key = none ∧ st'.Models rel m) ∨
    (∃ st' r z ids t, expectZset st key = some (st', r) ∧ r ≠ .null ∧ refZset R m key = some z ∧
      r.zset.Holds ids t ∧ rel t z ∧ st'.Models rel m ∧
      ∀ zs : ZSet, zs.Holds ids t → ∃ st'', r.store st' zs = some st'' ∧ st''.Models rel m) := by
  unfold refZset
  rcases expectZset_spec h key with ⟨st', hrun, hm, h'⟩ | ⟨st', s, d, hrun, hm, h'⟩ |
    ⟨st', e, ent, z, d, ids, t, hrun, hm, hf, hread, hz, hrel⟩
  · exact .inr ⟨st', .emptyZset, R.empty, nil, nil, hrun, by simp, by rw [hm], ZSet.holds_empty,
      hR.empty, h', fun zs _ => ⟨st', rfl, h'⟩⟩
  · exact .inl ⟨st', hrun, by rw [hm], h'⟩
  · refine .inr ⟨st', .entry e ent, z, ids, t, hrun, by simp, by rw [hm], hz, hrel, hf.models,
      fun zs hzs => ?_⟩
    obtain ⟨ents, hw, h'⟩ := hf.write_zset hread hzs hrel
    rw [insert_of_lookup hm] at h'
    exact ⟨_, by simp [ZSetRef.store, hw], h'⟩

theorem doZscore_spec {R : Reading Z} (hR : R.Sound rel) (h : st.Models rel m) (key name : Bytes) :
    Answers rel out (doZscore st key name out) (m, refZscore R m key name) := by
  unfold refZscore
  rcases expectZset_read hR h key with ⟨st', hrun, hm, h'⟩ |
    ⟨st', r, z, ids, t, hrun, hr, hm, hz, hrel, h', hstore⟩
  · rw [hm]
    exact .value (by simp [doZscore, hrun, outErr_eq]) h'
  · obtain ⟨hmap, found, hlook, hz', hfind, hfound⟩ := zsetLookup_spec hz name
    obtain ⟨st'', hput, h''⟩ := hstore _ hz'
    simp only [hm, hR.score hrel hz.ok name, hfind]
    cases found with
    | none =>
      refine .value ?_ h''
      cases r <;> simp_all [doZscore, outNil_eq]
    | some i =>
      have hread := hz.live i (hfound i rfl).1
      refine .value ?_ h''
      cases r <;> simp_all [doZscore, outDbl_eq]

theorem doZrem_spec {R : Reading Z} (hR : R.Sound rel) (h : st.Models rel m) (key name : Bytes) :
    Answers rel out (doZrem st key name out) (refZrem R m key name) := by
  unfold refZrem
  rcases expectZset_spec h key with ⟨st', hrun, hm, h'⟩ | ⟨st', s, d, hrun, hm, h'⟩ |
    ⟨st', e, ent, z, d, ids, t, hrun, hm, hf, hread, hz, hrel⟩
  · have hlook : zsetLookup {} name = some ({}, none) := rfl
    rw [hm]
    exact .value (by simp [doZrem, hrun, ZSetRef.zset, ZSetRef.store, hlook, outInt_eq]) h'
  · rw [hm]
    exact .value (by simp [doZrem, hrun, outErr_eq]) h'
  · obtain ⟨hmap, found, hlook, hz', hfind, hfound⟩ := zsetLookup_spec hz name
    simp only [hm, hR.score hrel hz.ok name, hfind, Option.isSome_map]
    cases found with
    | none =>
      obtain ⟨ents, hw, h'⟩ := hf.write_zset hread hz' hrel
      rw [insert_of_lookup hm] at h'
      exact .value (by simp [doZrem, hrun, ZSetRef.zset, ZSetRef.store, hlook, hw, outInt_eq]) h'
    | some i =>
      obtain ⟨hi, hname⟩ := hfound i rfl
      obtain ⟨zs', ids', hdel, hz''⟩ := zsetDelete_spec hz' hi
      have hat : ZSet.at { ent.zset with hmap := hmap } i = ent.zset.at i := rfl
      rw [hat, hname] at hz''
      obtain ⟨ents, hw, h'⟩ := hf.write_zset hread hz'' (hR.erase hrel hz.ok name)
      refine .value ?_ h'
      simp [doZrem, hrun, ZSetRef.zset, ZSetRef.store, hlook, hdel, hw, outInt_eq]

/-- **The loop of `do_zquery`** appends the members that `collect` lists. The induction is on
how many of them are still wanted. -/
theorem zquery_loop {zs : ZSet} {ids : BinaryTree NodeId} {t : ZTree} (h : zs.Holds ids t)
    (limit : Int) : ∀ (k fuel : Nat) (r : Option (Loc NodeId)) (n : Int) (out : Buffer),
    (∀ L, r = some L → L.tree = ids) → ((limit - n).toNat + 1) / 2 = k → k < fuel →
    loop (zqueryTurn zs limit) fuel (r.map Loc.val, n, out) =
      some (n + 2 * (ZTree.collect k (r.map (Loc.map zs.at))).length,
        out ++ Value.encodeAll (memberValues (ZTree.collect k (r.map (Loc.map zs.at))))) := by
  intro k
  induction k with
  | zero =>
    intro fuel r n out _ hk hfuel
    obtain ⟨fuel, rfl⟩ := Nat.exists_eq_add_of_lt hfuel
    have hcollect : ZTree.collect 0 (r.map (Loc.map zs.at)) = [] := rfl
    rw [hcollect]
    refine loop_done ?_
    cases r with
    | none => simp [zqueryTurn, memberValues, Value.encodeAll]
    | some L =>
      have hn : ¬n < limit := by omega
      simp [zqueryTurn, hn, memberValues, Value.encodeAll]
  | succ k ih =>
    intro fuel r n out htree hk hfuel
    obtain ⟨fuel, rfl⟩ := Nat.exists_eq_add_of_lt hfuel
    cases r with
    | none => exact loop_done (by simp [zqueryTurn, ZTree.collect, memberValues, Value.encodeAll])
    | some L =>
      have hL := htree L rfl
      have hread : zs.nodes.read L.val = some (zs.at L.val) := h.live _ (hL ▸ L.val_mem)
      obtain ⟨hoff, hwalk, htree'⟩ := znodeOffset_spec h hL 1
      have hn : n < limit := by omega
      have hturn : zqueryTurn zs limit ((some L).map Loc.val, n, out) =
          some (.again ((rankWalk (2 ^ 32) L 1).map Loc.val, n + 2,
            out ++ Value.encodeAll [.str (zs.at L.val).name, .dbl (zs.at L.val).score.bits])) := by
        simp [zqueryTurn, hn, hread, hoff, outDbl_eq, outStr_eq, Value.encodeAll]
      have hcollect : ZTree.collect (k + 1) ((some L).map (Loc.map zs.at)) =
          zs.at L.val :: ZTree.collect k ((rankWalk (2 ^ 32) L 1).map (Loc.map zs.at)) := by
        rw [Option.map_some, ZTree.collect, hwalk]
        rfl
      rw [loop_again hturn, ih _ _ _ _ htree' (by omega) (by omega), hcollect]
      simp only [memberValues, List.flatMap_cons, Value.encodeAll_append, List.append_assoc,
        List.length_cons, Nat.cast_add, Nat.cast_one]
      congr 2
      omega

theorem length_memberValues (zs : List ZNode) : (memberValues zs).length = 2 * zs.length := by
  induction zs with
  | nil => rfl
  | cons z zs ih =>
    unfold memberValues at ih ⊢
    rw [List.flatMap_cons, List.length_append, ih, List.length_cons]
    exact Nat.add_comm _ _

/-- A header written before its elements are counted, and patched afterwards. -/
theorem outEndArr_eq (vs : List Value) :
    outEndArr ((outBeginArr out).1 ++ Value.encodeAll vs) (outBeginArr out).2 vs.length =
      some (out ++ (Value.arr vs).encode) := by
  have hctx : (outBeginArr out).2 = out.length + 1 := by simp [outBeginArr, length_le]
  have hbuf : (outBeginArr out).1 ++ Value.encodeAll vs =
      (out ++ [Tag.arr.byte]) ++ (le 4 0 ++ Value.encodeAll vs) := by simp [outBeginArr]
  have hlen : out.length + 1 = (out ++ [Tag.arr.byte]).length := by simp
  have hget : ((out ++ [Tag.arr.byte]) ++ (le 4 0 ++ Value.encodeAll vs))[out.length]? =
      some Tag.arr.byte := by
    rw [List.getElem?_append_left (by rw [← hlen]; omega)]
    simp
  rw [outEndArr, hctx, hbuf, Nat.add_sub_cancel, hget, if_neg (by simp), hlen, bufPatch_le]
  simp [Value.encode]

/-- **The tail of `do_zquery`** appends the array of the members that the query lists. -/
theorem zqueryRange_spec {zs : ZSet} {ids : BinaryTree NodeId} {t : ZTree} (h : zs.Holds ids t)
    (score : Dbl) (name : Bytes) (offset limit : Int) (out : Buffer) :
    zqueryRange zs score name offset limit out =
      some (out ++ (Value.arr (memberValues (t.query score name offset limit))).encode) := by
  obtain ⟨L, hseek, hseek', hL⟩ := zsetSeekge_spec h score name
  obtain ⟨M, hoff, hoff', hM⟩ : ∃ M : Option (Loc NodeId),
      znodeOffset zs (L.map Loc.val) offset = some (M.map Loc.val) ∧
      ((t.seekge score name).bind fun L => rankWalk (2 ^ 32) L offset) = M.map (Loc.map zs.at) ∧
      ∀ K, M = some K → K.tree = ids := by
    cases L with
    | none => exact ⟨none, rfl, by rw [hseek']; rfl, nofun⟩
    | some L =>
      obtain ⟨h₁, h₂, h₃⟩ := znodeOffset_spec h (hL L rfl) offset
      exact ⟨_, h₁, by rw [hseek', Option.map_some, Option.bind_some, h₂], h₃⟩
  have hloop := zquery_loop h limit _ (limit.toNat + 1) M 0 (outBeginArr out).1 hM rfl (by omega)
  have hquery : ZTree.collect (((limit - 0).toNat + 1) / 2) (M.map (Loc.map zs.at)) =
      t.query score name offset limit := by
    rw [ZTree.query, hoff', Int.sub_zero]
  have hend := @outEndArr_eq out (memberValues (t.query score name offset limit))
  have hn : ∀ n : Nat, (0 + 2 * (n : Int)).toNat = 2 * n := fun n => by omega
  rw [length_memberValues, ← hn] at hend
  rw [hquery] at hloop
  simp only [zqueryRange, hseek, hoff, hloop, Option.bind_eq_bind, Option.bind_some]
  exact hend

theorem doZquery_spec {R : Reading Z} (hR : R.Sound rel) (strtod : Bytes → StrtodResult)
    (h : st.Models rel m) (key arg name offArg limArg : Bytes) :
    Answers rel out (doZquery strtod st key arg name offArg limArg out)
      (m, refZquery R strtod m key arg name offArg limArg) := by
  unfold refZquery doZquery
  cases str2dbl strtod arg with
  | none => exact .value (by simp [outErr_eq]) h
  | some score =>
    cases str2int offArg with
    | none => exact .value (by simp [outErr_eq]) h
    | some offset =>
      cases str2int limArg with
      | none => exact .value (by simp [outErr_eq]) h
      | some limit =>
        rcases expectZset_read hR h key with ⟨st', hrun, hm, h'⟩ |
          ⟨st', r, z, ids, t, hrun, hr, hm, hz, hrel, h', -⟩
        · simp only [hm]
          exact .value (by simp [hrun, outErr_eq]) h'
        · simp only [hm]
          by_cases hlim : limit ≤ 0
          · rw [if_pos hlim]
            have hempty := outArr_eq out []
            rw [Value.encodeAll, List.append_nil, List.length_nil] at hempty
            refine .value ?_ h'
            cases r <;> simp_all
          · rw [if_neg hlim]
            refine ⟨st', .arr (memberValues (t.query score name offset limit)), ?_,
              ⟨fun hex => by rw [hR.query hrel hz.ok hex], _, rfl⟩, h'⟩
            have hlist := zqueryRange_spec hz score name offset limit out
            cases r with
            | null => exact absurd rfl hr
            | emptyZset => simp [hrun, hlim, hlist]
            | entry e ent => simp [hrun, hlim, hlist]

/-! ## 3. All of them

The dispatch is on the parsed command, so this is one case for each of the theorems above.
-/

/-- **Every command answers what the map answers**, for every sound reading of sorted sets and
whatever `strtod` makes of a text. -/
theorem runCommand_spec {R : Reading Z} (hR : R.Sound rel) (strtod : Bytes → StrtodResult)
    (clk : Nat) (h : st.Models rel m) (cmd : Command) :
    Answers rel out (runCommand strtod clk st out cmd) (refCommand R strtod clk m cmd) := by
  cases cmd with
  | ping arg => exact .value (by simp [runCommand, outStr_eq]) h
  | «exists» key => exact doExists_spec h key
  | type key => exact doType_spec h key
  | persist key => exact doPersist_spec h key
  | incr key => exact doIncr_spec h key
  | get key => exact doGet_spec h key
  | set key val => exact doSet_spec h key val
  | del key => exact doDel_spec h key
  | pexpire key arg => exact doExpire_spec hR h clk key arg
  | pttl key => exact doTtl_spec h clk key
  | keys => exact doKeys_spec h
  | zadd key arg name => exact doZadd_spec hR strtod h key arg name
  | zrem key name => exact doZrem_spec hR h key name
  | zscore key name => exact doZscore_spec hR h key name
  | zquery key arg name offset limit => exact doZquery_spec hR strtod h key arg name offset limit
  | unknown => exact .value (by simp [runCommand, outErr_eq]) h

end ApexDB
