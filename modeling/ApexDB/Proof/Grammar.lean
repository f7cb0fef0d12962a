import ApexDB.Proof.Response
import ApexDB.Ui

/-!
# The decoder of the client accepts exactly the encodings

`printResponse_encode` is one half: an encoding is taken, whatever follows it. Here is the other
one, by induction on the levels that are left and, inside an array, on the elements that are
left:

> **what is taken is an encoding** (`printResponse_cases`): the decoder returns -1, or the data starts
> with the bytes of a value and the result is how many these are.

No case of it is a fault, so nothing is read behind the end and `size - arr_bytes` stays above
zero, whatever the counts and lengths say.
-/

set_option autoImplicit false

namespace ApexDB

open Lib

/-! ## 1. Values with the types of the writers

A value of the model may have a number that no field of the wire can hold. The writers would cut
it, so it is only of `Typed` values that the bytes and the value say the same.
-/

namespace Value

mutual

/-- Every field is of the type that the writer of it takes: `uint32_t`, `int64_t` or a `double`.
-/
def Typed : Value → Prop
  | err code _ => code < 2 ^ 32
  | int n => -2 ^ 63 ≤ n ∧ n < 2 ^ 63
  | dbl bits => bits < 2 ^ 64
  | arr vs => TypedAll vs
  | _ => True

def TypedAll : List Value → Prop
  | [] => True
  | v :: vs => v.Typed ∧ TypedAll vs

end

end Value

/-- The bytes of an `int64_t` are those of the number read from them. -/
theorem toInt64_mod {n : Nat} (h : n < 2 ^ 64) : (toInt64 n % 2 ^ 64).toNat = n := by
  unfold toInt64
  split <;> omega

theorem toInt64_range (n : Nat) : -2 ^ 63 ≤ toInt64 n ∧ toInt64 n < 2 ^ 63 := by
  unfold toInt64
  split <;> omega

/-! ## 2. What is taken is an encoding

One lemma for each branch of the decoder, with the same two outcomes, and then the induction
that puts them together. The limit on the size keeps positions within `int32_t`.
-/

/-- The data starts with a value, of which every element lies in fewer than `levels` arrays;
`rv` is its size. -/
def Taken (levels : Nat) (data : Bytes) (rv : Option Int) : Prop :=
  ∃ (v : Value) (rest : Bytes), data = v.encode ++ rest ∧ v.Typed ∧ v.nesting < levels ∧
    rv = some (v.encode.length : Int)

/-- The branch for a text: `-1`, or the text stands in the data. -/
theorem printText_cases {data : Bytes} (pos : Nat) (hsize : data.length < 2 ^ 31) :
    printText data pos = some (-1) ∨
    ∃ s rest : Bytes, data.drop pos = le 4 s.length ++ (s ++ rest) ∧
      printText data pos = some ((pos + 4 + s.length : Nat) : Int) := by
  unfold printText
  by_cases hpos : data.length < pos + 4
  · rw [if_pos hpos]
    exact .inl rfl
  have hle : pos + 4 ≤ data.length := Nat.le_of_not_lt hpos
  rw [if_neg hpos, u32At, if_pos hle]
  simp only [Option.bind_eq_bind, Option.bind_some]
  by_cases hlen : data.length - (pos + 4) < ofLe ((data.drop pos).take 4)
  · rw [if_pos hlen]
    exact .inl rfl
  · rw [if_neg hlen]
    refine .inr ⟨(data.drop (pos + 4)).take (ofLe ((data.drop pos).take 4)),
      data.drop (pos + 4 + ofLe ((data.drop pos).take 4)), ?_, ?_⟩
    · have hs : ((data.drop (pos + 4)).take (ofLe ((data.drop pos).take 4))).length =
          ofLe ((data.drop pos).take 4) := by
        rw [List.length_take, List.length_drop]
        omega
      rw [hs, slice_append, le_slice hle, slice_append]
    · rw [List.length_take, List.length_drop, Nat.min_eq_left (by omega), toInt32_of_lt (by omega)]
      rfl

/-- The branch for a number: `-1`, or eight bytes follow the tag. -/
theorem printNumber_cases (tag : UInt8) (body : Bytes) :
    printNumber (tag :: body) = some (-1) ∨
    ∃ (n : Nat) (rest : Bytes), n < 2 ^ 64 ∧ body = le 8 n ++ rest ∧
      printNumber (tag :: body) = some ((8 + 1 : Nat) : Int) := by
  by_cases hlen : (tag :: body).length < 1 + 8
  · rw [printNumber, if_pos hlen]
    exact .inl rfl
  · rw [List.length_cons] at hlen
    refine .inr ⟨ofLe (body.take 8), body.drop 8, ?_, ?_, ?_⟩
    · exact ofLe_slice_lt body 0 8
    · rw [le_take_append (by omega)]
    · rw [printNumber, if_neg (by rw [List.length_cons]; omega)]
      rfl

/-- The loop over the elements, when the decoder of an element is right. -/
theorem printElements_cases {levels : Nat} {data : Bytes} (hsize : data.length < 2 ^ 31)
    (ih : ∀ d : Bytes, d.length < 2 ^ 31 →
      printResponse levels d = some (-1) ∨ Taken levels d (printResponse levels d)) :
    ∀ n arrBytes, arrBytes ≤ data.length →
      printElements (printResponse levels) data n arrBytes = some (-1) ∨
      ∃ (vs : List Value) (rest : Bytes), vs.length = n ∧
        data.drop arrBytes = Value.encodeAll vs ++ rest ∧ Value.TypedAll vs ∧
        Value.nestingAll vs ≤ levels ∧
        printElements (printResponse levels) data n arrBytes =
          some ((arrBytes + (Value.encodeAll vs).length : Nat) : Int) := by
  intro n
  induction n with
  | zero =>
    intro arrBytes hle
    refine .inr ⟨[], data.drop arrBytes, rfl, rfl, trivial, Nat.zero_le _, ?_⟩
    rw [printElements, toInt32_of_lt (by omega)]
    rfl
  | succ n ihn =>
    intro arrBytes hle
    rw [printElements, if_neg (Nat.not_lt.mpr hle)]
    rcases ih (data.drop arrBytes) (by rw [List.length_drop]; omega) with h | h
    · rw [h]
      exact .inl rfl
    · obtain ⟨v, rest, hdata, hty, hnest, hrv⟩ := h
      have hfit : arrBytes + v.encode.length ≤ data.length := by
        have hlen := congrArg List.length hdata
        rw [List.length_drop, List.length_append] at hlen
        omega
      have hrest : data.drop (arrBytes + v.encode.length) = rest := by
        rw [← List.drop_drop, hdata]
        exact List.drop_left
      rw [hrv]
      simp only [Option.bind_eq_bind, Option.bind_some]
      rw [if_neg (by omega), Int.toNat_natCast]
      rcases ihn (arrBytes + v.encode.length) hfit with h | h
      · exact .inl h
      · obtain ⟨vs, rest', hn, hvs, htys, hnests, hres⟩ := h
        refine .inr ⟨v :: vs, rest', by rw [List.length_cons, hn], ?_, ⟨hty, htys⟩, ?_, ?_⟩
        · rw [hdata, Value.encodeAll, List.append_assoc, ← hvs, hrest]
        · rw [Value.nestingAll]
          omega
        · rw [hres, Value.encodeAll, List.length_append, Nat.add_assoc]

theorem printArray_cases {levels : Nat} {body : Bytes}
    (hsize : (Tag.arr.byte :: body).length < 2 ^ 31)
    (ih : ∀ d : Bytes, d.length < 2 ^ 31 →
      printResponse levels d = some (-1) ∨ Taken levels d (printResponse levels d)) :
    printResponse (levels + 1) (Tag.arr.byte :: body) = some (-1) ∨
      Taken (levels + 1) (Tag.arr.byte :: body)
        (printResponse (levels + 1) (Tag.arr.byte :: body)) := by
  by_cases hlen : (Tag.arr.byte :: body).length < 1 + 4
  · left
    rw [printResponse]
    exact if_pos hlen
  have hle : 1 + 4 ≤ (Tag.arr.byte :: body).length := Nat.le_of_not_lt hlen
  have heq : printResponse (levels + 1) (Tag.arr.byte :: body) =
      printElements (printResponse levels) (Tag.arr.byte :: body) (ofLe (body.take 4)) 5 := by
    have hu : u32At (Tag.arr.byte :: body) 1 = some (ofLe (body.take 4)) := by
      rw [u32At, if_pos hle]
      rfl
    rw [printResponse]
    change (if _ then _ else _) = _
    rw [if_neg hlen, hu]
    rfl
  rw [heq]
  rcases printElements_cases hsize ih (ofLe (body.take 4)) 5 hle with h | h
  · exact .inl h
  · obtain ⟨vs, rest, hn, hvs, htys, hnests, hres⟩ := h
    have hbody : body = le 4 vs.length ++ (Value.encodeAll vs ++ rest) := by
      rw [List.length_cons] at hle
      rw [hn, ← hvs]
      exact (le_take_append (by omega)).symm
    refine .inr ⟨.arr vs, rest, ?_, htys, Nat.lt_succ_of_le hnests, ?_⟩
    · rw [Value.encode, List.cons_append, List.append_assoc, ← hbody]
    · rw [hres, Value.encode, List.length_cons, List.length_append, length_le]
      congr 2
      omega

theorem printErr_cases {levels : Nat} {body : Bytes} (hsize : (Tag.err.byte :: body).length < 2 ^ 31) :
    printText (Tag.err.byte :: body) 5 = some (-1) ∨
      Taken (levels + 1) (Tag.err.byte :: body) (printText (Tag.err.byte :: body) 5) := by
  rcases printText_cases 5 hsize with h | ⟨s, rest, hs, hres⟩
  · exact .inl h
  have hfour : 4 ≤ body.length := by
    have hlen := congrArg List.length hs
    rw [List.length_drop, List.length_append, length_le, List.length_cons] at hlen
    omega
  refine .inr ⟨.err (ofLe (body.take 4)) s, rest, ?_, ofLe_slice_lt body 0 4, Nat.succ_pos _, ?_⟩
  · rw [List.drop_succ_cons] at hs
    rw [Value.encode, List.cons_append, List.append_assoc, List.append_assoc, ← hs, le_take_append hfour]
  · rw [hres, Value.encode, List.length_cons, List.length_append, List.length_append, length_le,
      length_le]
    congr 2
    omega

theorem printStr_cases {levels : Nat} {body : Bytes} (hsize : (Tag.str.byte :: body).length < 2 ^ 31) :
    printText (Tag.str.byte :: body) 1 = some (-1) ∨
      Taken (levels + 1) (Tag.str.byte :: body) (printText (Tag.str.byte :: body) 1) := by
  rcases printText_cases 1 hsize with h | ⟨s, rest, hs, hres⟩
  · exact .inl h
  refine .inr ⟨.str s, rest, ?_, trivial, Nat.succ_pos _, ?_⟩
  · rw [Value.encode, List.cons_append, List.append_assoc, ← hs]
    rfl
  · rw [hres, Value.encode, List.length_cons, List.length_append, length_le]
    congr 2
    omega

/-- The two branches for a number, whatever value of these eight bytes it is. -/
theorem printNumber_taken {levels : Nat} {tag : UInt8} {body : Bytes} (value : Nat → Value)
    (hencode : ∀ n, n < 2 ^ 64 → (value n).encode = tag :: le 8 n)
    (htyped : ∀ n, n < 2 ^ 64 → (value n).Typed) (hflat : ∀ n, (value n).nesting = 0) :
    printNumber (tag :: body) = some (-1) ∨
      Taken (levels + 1) (tag :: body) (printNumber (tag :: body)) := by
  rcases printNumber_cases tag body with h | ⟨n, rest, hn, hbody, hres⟩
  · exact .inl h
  refine .inr ⟨value n, rest, ?_, htyped n hn, ?_, ?_⟩
  · rw [hencode n hn, List.cons_append, ← hbody]
  · rw [hflat]
    exact Nat.succ_pos _
  · rw [hres, hencode n hn, List.length_cons, length_le]

/-- **What the decoder takes is an encoding.** The induction is on the levels, and the bound on
the size keeps every position within `int32_t`. -/
theorem printResponse_cases : ∀ (levels : Nat) (data : Bytes), data.length < 2 ^ 31 →
    printResponse levels data = some (-1) ∨ Taken levels data (printResponse levels data) := by
  intro levels
  induction levels with
  | zero =>
    intro data hsize
    exact .inl rfl
  | succ levels ih =>
    intro data hsize
    cases data with
    | nil => exact .inl rfl
    | cons tag body =>
      -- one case for each tag, in the order of the `switch`
      by_cases h0 : tag = Tag.nil.byte
      · subst h0
        exact .inr ⟨.nil, body, rfl, trivial, Nat.succ_pos _, rfl⟩
      by_cases h1 : tag = Tag.err.byte
      · subst h1
        exact printErr_cases hsize
      by_cases h2 : tag = Tag.str.byte
      · subst h2
        exact printStr_cases hsize
      by_cases h3 : tag = Tag.int.byte
      · subst h3
        refine printNumber_taken (fun n => .int (toInt64 n)) (fun n hn => ?_)
          (fun n _ => toInt64_range n) fun _ => rfl
        rw [Value.encode, toInt64_mod hn]
      by_cases h4 : tag = Tag.dbl.byte
      · subst h4
        exact printNumber_taken .dbl (fun _ _ => rfl) (fun _ hn => hn) fun _ => rfl
      by_cases h5 : tag = Tag.arr.byte
      · subst h5
        exact printArray_cases hsize ih
      · left
        rw [printResponse]
        rw [if_neg h0, if_neg h1, if_neg h2, if_neg h3, if_neg h4, if_neg h5]

/-! ## 3. The grammar

Both halves as one equivalence, for data of at most `k_max_msg` bytes, which is the limit on
every response.
-/

/-- **`print_response` accepts exactly the grammar of tagged values**, in the call from outside
(`depth = 0`) and in every call inside it. The result is the size of the one value the data
starts with, as a number and not modulo `2 ^ 32`, and -1 if there is none. -/
theorem print_response_grammar (data : Bytes) (depth : Nat) (hsize : data.length ≤ kMaxMsg) :
    ∃ rv : Int, printResponse (kMaxDepth - depth) data = some rv ∧
      (∀ k : Nat, rv = k ↔ k ≤ data.length ∧
        ∃ v : Value, v.Typed ∧ depth + v.nesting ≤ 64 ∧ data.take k = v.encode) ∧
      (rv = -1 ∨ ∃ k : Nat, rv = k ∧ 1 ≤ k ∧ k ≤ data.length) ∧
      ∀ (v : Value) (rest : Bytes), data = v.encode ++ rest → depth + v.nesting ≤ 64 →
        rv = (v.encode.length : Nat) := by
  have hmax : kMaxMsg < 2 ^ 31 := by decide
  have hlevels : ∀ v : Value, v.nesting < kMaxDepth - depth ↔ depth + v.nesting ≤ 64 := by
    intro v
    have hd : kMaxDepth = 65 := rfl
    omega
  -- an encoding in front fixes the result
  have htake : ∀ (v : Value) (rest : Bytes), data = v.encode ++ rest → depth + v.nesting ≤ 64 →
      printResponse (kMaxDepth - depth) data = some (v.encode.length : Int) := by
    intro v rest hdata hnest
    have hlen : v.encode.length ≤ data.length := by
      rw [hdata, List.length_append]
      omega
    have h := printResponse_encode v (kMaxDepth - depth) rest ((hlevels v).mpr hnest) (by omega)
    rwa [← hdata] at h
  have hfirst : ∀ (k : Nat) (v : Value), k ≤ data.length → data.take k = v.encode →
      data = v.encode ++ data.drop k ∧ v.encode.length = k := by
    intro k v hk hv
    rw [← hv, List.take_append_drop, List.length_take, Nat.min_eq_left hk]
    exact ⟨rfl, rfl⟩
  rcases printResponse_cases (kMaxDepth - depth) data (by omega) with h | h
  · -- refused: no value is in front
    refine ⟨-1, h, fun k => ⟨fun hk => by omega, ?_⟩, .inl rfl, fun v rest hdata hnest => ?_⟩
    · rintro ⟨hk, v, -, hnest, hv⟩
      obtain ⟨hdata, hlen⟩ := hfirst k v hk hv
      have hres := htake v _ hdata hnest
      rw [h, hlen] at hres
      exact Option.some.inj hres
    · have hres := htake v rest hdata hnest
      rw [h] at hres
      exact Option.some.inj hres
  · obtain ⟨w, rest, hdata, hty, hnest, hrv⟩ := h
    have hw := (hlevels w).mp hnest
    have hle : w.encode.length ≤ data.length := by
      rw [hdata, List.length_append]
      omega
    refine ⟨(w.encode.length : Nat), hrv, fun k => ⟨fun hk => ?_, ?_⟩,
      .inr ⟨_, rfl, List.length_pos_iff.mpr w.encode_ne_nil, hle⟩, fun v rest' hdata' hnest' => ?_⟩
    · obtain rfl : w.encode.length = k := Int.ofNat.inj hk
      refine ⟨hle, w, hty, hw, ?_⟩
      rw [hdata]
      exact List.take_left
    · rintro ⟨hk, v, -, hnest', hv⟩
      obtain ⟨hdata', hlen⟩ := hfirst k v hk hv
      have hres := htake v _ hdata' hnest'
      rw [hrv, hlen] at hres
      exact Option.some.inj hres
    · have hres := htake v rest' hdata' hnest'
      rw [hrv] at hres
      exact Option.some.inj hres

/-- An array of a null and an array with no elements, and two bytes behind it. -/
theorem print_response_grammar_arr :
    ∃ rv : Int, printResponse kMaxDepth [5, 2, 0, 0, 0, 0, 5, 0, 0, 0, 0, 7, 7] = some rv ∧ rv = 11 := by
  obtain ⟨rv, hrv, -, -, hval⟩ :=
    print_response_grammar [5, 2, 0, 0, 0, 0, 5, 0, 0, 0, 0, 7, 7] 0 (by decide)
  exact ⟨rv, hrv, hval (.arr [.nil, .arr []]) [7, 7] (by decide) (by decide)⟩

end ApexDB
