import ApexDB.Proof.AvlValid
import ApexDB.Proof.Cluster

/-!
# The merge of key arrays is exact

`merge_key_arrays` reads bodies that any shard may have sent. The loop keeps `off` inside the
body, so `body.size()
- off` is not below zero and every read is of bytes that are there (`readKeysChecked_eq`). **A body is read exactly
when it is the encoding of an array of strings** (`keyArray_iff`), and nothing is written before all of them are
read.

What a shard sends is not trusted: lengths and counts may be anything that fits into their four
bytes.
-/

set_option autoImplicit false

namespace ApexDB

open Lib

/-! ## 1. No expression leaves its type

The version with checks refuses every subtraction below zero, every sum past `2 ^ 64` and every
read behind the end. On a body of admissible size it refuses nothing, so the two versions are
the same.
-/

theorem size?_eq {z : Int} {n : Nat} (h : z = n) (hn : n < 2 ^ 64) : size? z = some n := by
  have hz : 0 ≤ z ∧ z < 2 ^ 64 := by omega
  rw [size?, if_pos hz, h, Int.toNat_natCast]

/-- The loop over the strings of a body: with the checks it does what it does without. -/
theorem readKeysChecked_eq {body : Bytes} (hsize : body.length ≤ kMaxMsg) : ∀ n off,
    off ≤ body.length → readKeysChecked body n off = some (readKeys body n off) := by
  have hmax : kMaxMsg < 2 ^ 31 := by decide
  intro n
  induction n with
  | zero =>
    intro off _
    rfl
  | succ n ih =>
    intro off hoff
    have hslen : ofLe ((body.drop (off + 1)).take 4) < 2 ^ 32 := ofLe_slice_lt body (off + 1) 4
    rw [readKeysChecked, readKeys, size?_eq (n := body.length - off) (by omega) (by omega)]
    simp only [Option.bind_eq_bind, Option.bind_some]
    by_cases hleft : body.length - off < 5
    · rw [if_pos hleft, if_pos (.inl hleft)]
      rfl
    rw [if_neg hleft, List.getElem?_eq_getElem (by omega : off < body.length)]
    simp only [Option.bind_some]
    by_cases htag : body[off] = Tag.str.byte
    · rw [if_neg (not_not.mpr htag), if_neg (by simp [hleft, htag]), u32At, if_pos (by omega)]
      generalize ofLe ((body.drop (off + 1)).take 4) = slen at hslen
      rw [Option.bind_some, size?_eq (n := off + 5 + slen) (by omega) (by omega), Option.bind_some]
      by_cases hfit : body.length < off + 5 + slen
      · rw [if_pos hfit, if_pos hfit]
        rfl
      · have hkey : off + 5 + slen ≤ body.length := Nat.le_of_not_lt hfit
        have hstep : u32? (5 + slen) = some (5 + slen) := u32?_of_lt (by omega)
        rw [if_neg hfit, if_neg hfit, slice?, if_pos hkey, hstep, Option.bind_some, Option.bind_some,
          size?_eq (n := off + 5 + slen) (by omega) (by omega), Option.bind_some,
          ih _ hkey, Option.bind_some]
        cases readKeys body n (off + 5 + slen) with
        | none => rfl
        | some r => rfl
    · rw [if_pos htag, if_pos (.inr fun h => htag (Option.some.inj h))]
      rfl

theorem keyArrayChecked_eq {body : Bytes} (hsize : body.length ≤ kMaxMsg) :
    keyArrayChecked body = some (keyArray body) := by
  unfold keyArrayChecked keyArray
  cases body with
  | nil => rfl
  | cons tag rest =>
    rw [if_neg (by simp), List.getElem?_cons_zero]
    simp only [Option.bind_eq_bind, Option.bind_some]
    by_cases hhead : tag ≠ Tag.arr.byte ∨ (tag :: rest).length < 5
    · rw [if_pos hhead, if_pos]
      · rfl
      · exact .inr (hhead.imp (fun h heq => h (Option.some.inj heq)) id)
    · obtain ⟨htag, hfive⟩ := not_or.mp hhead
      rw [if_neg hhead, if_neg (by simpa using hhead), u32At, if_pos (by omega), Option.bind_some,
        readKeysChecked_eq hsize _ _ (by omega), Option.bind_some]
      rfl

theorem gatherKeysChecked_eq : ∀ bodies : List Bytes, (∀ b ∈ bodies, b.length ≤ kMaxMsg) →
    gatherKeysChecked bodies = some ((bodies.mapM keyArray).map List.flatten) := by
  intro bodies
  induction bodies with
  | nil =>
    intro _
    rfl
  | cons body bodies ih =>
    intro hsize
    rw [List.forall_mem_cons] at hsize
    rw [gatherKeysChecked, keyArrayChecked_eq hsize.1, List.mapM_cons]
    simp only [Option.bind_eq_bind, Option.bind_some]
    cases keyArray body with
    | none => rfl
    | some keys =>
      simp only [Option.bind_some, ih hsize.2]
      cases bodies.mapM keyArray with
      | none => rfl
      | some ls => rfl

/-- **No read leaves a body and no offset its type**: the checks change nothing. -/
theorem mergeKeyArraysChecked_eq {bodies : List Bytes} (hsize : ∀ b ∈ bodies, b.length ≤ kMaxMsg)
    (out : Buffer) : mergeKeyArraysChecked bodies out =
      some ((mergeKeyArrays bodies out).isSome, (mergeKeyArrays bodies out).getD out) := by
  rw [mergeKeyArraysChecked, mergeKeyArrays, gatherKeysChecked_eq bodies hsize]
  cases bodies.mapM keyArray with
  | none => rfl
  | some ls => rfl

/-! ## 2. What is read is an array of strings

The reader is sound and complete for the encodings, in the sense that both directions are one
equivalence. The last offset has to be the end of the body, so nothing can follow the array.
-/

/-- What the loop has read stands in the body from where it began to where it ended. -/
theorem readKeys_sound {body : Bytes} : ∀ {n off last : Nat} {keys : List Bytes},
    readKeys body n off = some (last, keys) → off ≤ body.length →
    keys.length = n ∧ last ≤ body.length ∧
      body.drop off = Value.encodeAll (keys.map .str) ++ body.drop last := by
  intro n
  induction n with
  | zero =>
    intro off last keys h hoff
    cases h
    exact ⟨rfl, hoff, rfl⟩
  | succ n ih =>
    intro off last keys h hoff
    rw [readKeys] at h
    split at h
    · cases h
    · rename_i hhead
      obtain ⟨hleft, htag⟩ := not_or.mp hhead
      dsimp only at h
      split at h
      · cases h
      · rename_i hfit
        obtain ⟨⟨last', keys'⟩, hrest, heq⟩ := Option.bind_eq_some_iff.mp h
        cases heq
        obtain ⟨hlen, hlast, hdrop⟩ := ih hrest (by omega)
        refine ⟨by rw [List.length_cons, hlen], hlast, ?_⟩
        have hcons : body.drop off = Tag.str.byte :: body.drop (off + 1) := by
          rw [List.drop_eq_getElem_cons (by omega : off < body.length)]
          rw [List.getElem?_eq_getElem (by omega)] at htag
          rw [Option.some.inj (not_not.mp htag)]
        have hkey : ((body.drop (off + 5)).take (ofLe ((body.drop (off + 1)).take 4))).length =
            ofLe ((body.drop (off + 1)).take 4) := by
          rw [List.length_take, List.length_drop]
          omega
        rw [hcons, List.map_cons, Value.encodeAll, Value.encode, hkey,
          le_slice (by omega : off + 1 + 4 ≤ body.length), List.append_assoc, List.cons_append,
          List.append_assoc, ← hdrop, slice_append, slice_append]

/-- **A body is read exactly when it is the encoding of an array of strings**, and these are
read. -/
theorem keyArray_iff {body : Bytes} (hsize : body.length ≤ kMaxMsg) (keys : List Bytes) :
    keyArray body = some keys ↔ body = (keysReply keys).encode := by
  constructor
  · intro h
    unfold keyArray at h
    split at h
    · cases h
    · rename_i hhead
      simp only [not_or, not_not, List.isEmpty_iff] at hhead
      obtain ⟨-, htag, hfive⟩ := hhead
      obtain ⟨⟨last, keys'⟩, hread, heq⟩ := Option.bind_eq_some_iff.mp h
      dsimp only at heq
      split at heq
      · cases heq
      · rename_i hlast
        cases heq
        obtain ⟨hlen, -, hdrop⟩ := readKeys_sound hread (by omega)
        have hcons : body = Tag.arr.byte :: body.drop 1 := by
          cases body with
          | nil => cases htag
          | cons tag rest => rw [Option.some.inj htag, List.drop_one, List.tail_cons]
        have hcut := slice_append body 1 4
        rw [← le_slice (by omega : 1 + 4 ≤ body.length), hdrop, not_not.mp hlast,
          List.drop_length, List.append_nil, ← hlen] at hcut
        rw [hcons, ← hcut, Value.encode, List.length_map]
  · intro h
    have hback := keyArray_sent keys
    rw [← h] at hback
    rw [if_pos hsize, sent, ← h, if_neg (by omega)] at hback
    rw [h]
    exact hback

theorem mapM_keyArray_iff : ∀ {bodies : List Bytes}, (∀ b ∈ bodies, b.length ≤ kMaxMsg) →
    ∀ ls : List (List Bytes), bodies.mapM keyArray = some ls ↔
      bodies = ls.map fun l => (keysReply l).encode := by
  intro bodies
  induction bodies with
  | nil =>
    intro _ ls
    cases ls with
    | nil => exact ⟨fun _ => rfl, fun _ => rfl⟩
    | cons l ls =>
      constructor
      · intro h
        cases h
      · intro h
        cases h
  | cons body bodies ih =>
    intro hsize ls
    rw [List.forall_mem_cons] at hsize
    rw [List.mapM_cons]
    constructor
    · intro h
      obtain ⟨l, hl, h⟩ := Option.bind_eq_some_iff.mp h
      obtain ⟨ls', hls, h⟩ := Option.bind_eq_some_iff.mp h
      cases h
      rw [List.map_cons, ← (keyArray_iff hsize.1 l).mp hl, ← (ih hsize.2 ls').mp hls]
    · intro h
      cases ls with
      | nil => cases h
      | cons l ls =>
        obtain ⟨hbody, hbodies⟩ := List.cons.inj h
        rw [(keyArray_iff hsize.1 l).mpr hbody, (ih hsize.2 ls).mpr hbodies]
        rfl

/-! ## 3. The merge

The strings of all bodies are collected in the order of the bodies and written as one array.
Their number is written in four bytes.
-/

/-- Strings that stood in bodies within the limit are written with their lengths, and their
number is as long as it is below `2 ^ 32`. -/
theorem exact_keysReply {ls : List (List Bytes)}
    (hsize : ∀ b ∈ ls.map (fun l => (keysReply l).encode), b.length ≤ kMaxMsg)
    (hcount : ls.flatten.length < 2 ^ 32) : (keysReply ls.flatten).Exact := by
  have hmax : kMaxMsg < 2 ^ 32 := by decide
  have hall : ∀ l : List Bytes, (∀ key ∈ l, key.length < 2 ^ 32) →
      Value.ExactAll (l.map .str) := by
    intro l
    induction l with
    | nil => exact fun _ => trivial
    | cons key l ih =>
      intro h
      rw [List.forall_mem_cons] at h
      exact ⟨h.1, ih h.2⟩
  refine ⟨by rwa [List.length_map], hall _ fun key hkey => ?_⟩
  obtain ⟨l, hl, hkey⟩ := List.mem_flatten.mp hkey
  have hlen := hsize _ (List.mem_map_of_mem hl)
  have hone := length_keysReply_sublist (List.singleton_sublist.mpr hkey)
  rw [length_keysReply [key], List.map_singleton, List.sum_singleton] at hone
  omega

/-- The keys of a store, each once, in the order of its hash map. -/
def Store.ListsKeys (st : Store) (l : List Bytes) : Prop :=
  l.Nodup ∧ ∀ key, key ∈ l ↔ st.HasKey key

def keysBody (st : Store) : Option Bytes := (doKeys st []).map Prod.snd

theorem keysBody_lists {strtod : Bytes → StrtodResult} {threads : Nat} {evs : List StoreEvent}
    {st : Store} {outs : List Bytes}
    (hrun : run (storeStep strtod) { threads := threads } evs = some (st, outs)) :
    ∃ l, st.ListsKeys l ∧ keysBody st = some (keysReply l).encode := by
  obtain ⟨st', outs', m, hrun', h⟩ := store_run_models mapReading_sound strtod evs
    (Store.models_empty threads)
  rw [hrun] at hrun'
  cases hrun'
  have hans : Answers ScoresOf [] (doKeys st []) (m, .keys m.keys) := doKeys_spec h
  obtain ⟨st', v, hkeys, ⟨l, rfl, hnodup, hl⟩, -⟩ := hans
  refine ⟨l, ⟨hnodup, fun key => ?_⟩, by rw [keysBody, hkeys]; rfl⟩
  rw [h.hasKey_iff, ← List.mem_toFinset, hl, Finmap.mem_keys, ← Finmap.lookup_isSome,
    Option.isSome_iff_ne_none]

theorem mapM_keysBody {strtod : Bytes → StrtodResult} : ∀ {stores : List Store},
    (∀ st ∈ stores, ∃ threads evs outs,
      run (storeStep strtod) { threads := threads } evs = some (st, outs)) →
    ∃ ls, List.Forall₂ Store.ListsKeys stores ls ∧
      stores.mapM keysBody = some (ls.map fun l => (keysReply l).encode) := by
  intro stores
  induction stores with
  | nil =>
    intro _
    exact ⟨[], .nil, rfl⟩
  | cons st stores ih =>
    intro h
    rw [List.forall_mem_cons] at h
    obtain ⟨⟨threads, evs, outs, hrun⟩, h⟩ := h
    obtain ⟨l, hl, hbody⟩ := keysBody_lists hrun
    obtain ⟨ls, hls, hbodies⟩ := ih h
    refine ⟨l :: ls, .cons hl hls, ?_⟩
    rw [List.mapM_cons, hbody, hbodies]
    rfl

/-- **`merge_key_arrays` is an exact merge, of all bodies or of none.** It returns true exactly
when every body is the encoding of an array of strings, and then appends the encoding of the
array of all of them; otherwise `out` is as it was. No read and no offset is out of range, and
what `do_keys` writes for stores that can be reached is merged into their keys. -/
theorem merge_key_arrays_exact (strtod : Bytes → StrtodResult) (bodies : List Bytes) (out : Buffer)
    (hsize : ∀ b ∈ bodies, b.length ≤ kMaxMsg) :
    ∃ ok out', mergeKeyArraysChecked bodies out = some (ok, out') ∧
      mergeKeyArrays bodies out = (if ok then some out' else none) ∧
      (ok = true ↔ ∃ ls : List (List Bytes), bodies = ls.map fun l => (keysReply l).encode) ∧
      (∀ ls : List (List Bytes), bodies = ls.map (fun l => (keysReply l).encode) →
        out' = out ++ (keysReply ls.flatten).encode ∧
        (ls.flatten.length < 2 ^ 32 → (keysReply ls.flatten).Exact)) ∧
      (ok = false → out' = out) ∧
      ∀ stores : List Store, (∀ st ∈ stores, ∃ threads evs outs,
          run (storeStep strtod) { threads := threads } evs = some (st, outs)) →
        ∃ ls, List.Forall₂ Store.ListsKeys stores ls ∧
          stores.mapM keysBody = some (ls.map fun l => (keysReply l).encode) ∧
          (stores.mapM keysBody = some bodies →
            ok = true ∧ out' = out ++ (keysReply ls.flatten).encode) := by
  have hread := mapM_keyArray_iff hsize
  refine ⟨_, _, mergeKeyArraysChecked_eq hsize out, ?_, ?_, fun ls h => ?_, fun h => ?_,
    fun stores hstores => ?_⟩
  · cases mergeKeyArrays bodies out <;> rfl
  · -- the merge is made exactly when every body is read
    rw [mergeKeyArrays, Option.isSome_iff_exists]
    constructor
    · intro h
      obtain ⟨out', h⟩ := h
      obtain ⟨ls, hls, -⟩ := Option.bind_eq_some_iff.mp h
      exact ⟨ls, (hread ls).mp hls⟩
    · intro h
      obtain ⟨ls, hls⟩ := h
      rw [(hread ls).mpr hls]
      exact ⟨_, rfl⟩
  · rw [mergeKeyArrays_eq ((hread ls).mpr h)]
    rw [h] at hsize
    exact ⟨rfl, exact_keysReply hsize⟩
  · have hnone : mergeKeyArrays bodies out = none := Option.isNone_iff_eq_none.mp (by simpa using h)
    rw [hnone]
    rfl
  · obtain ⟨ls, hls, hbodies⟩ := mapM_keysBody hstores
    refine ⟨ls, hls, hbodies, fun h => ?_⟩
    rw [hbodies] at h
    rw [mergeKeyArrays_eq ((hread ls).mpr (Option.some.inj h).symm)]
    exact ⟨rfl, rfl⟩

/-- Two arrays, the keys `a` and the empty one, and none. -/
theorem merge_key_arrays_two :
    ∃ out', mergeKeyArraysChecked [[5, 2, 0, 0, 0, 2, 1, 0, 0, 0, 97, 2, 0, 0, 0, 0], [5, 0, 0, 0, 0]]
        [9] = some (true, out') ∧
      out' = [9] ++ (keysReply [[97], []]).encode := by
  have hbodies : [[5, 2, 0, 0, 0, 2, 1, 0, 0, 0, 97, 2, 0, 0, 0, 0], [5, 0, 0, 0, 0]] =
      [[[97], []], []].map fun l : List Bytes => (keysReply l).encode := by decide
  obtain ⟨ok, out', hrun, -, hok, hout, -⟩ := merge_key_arrays_exact (fun _ => ⟨none, 0, false⟩)
    [[5, 2, 0, 0, 0, 2, 1, 0, 0, 0, 97, 2, 0, 0, 0, 0], [5, 0, 0, 0, 0]] [9] (by decide)
  rw [hok.mpr ⟨_, hbodies⟩] at hrun
  exact ⟨out', hrun, (hout _ hbodies).1⟩

end ApexDB
