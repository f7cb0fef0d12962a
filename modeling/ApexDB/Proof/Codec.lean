import ApexDB.Protocol

/-!
# The request codec is exact

`parseStrs_iff` is the whole content: the loop of `parse_req` succeeds on exactly the bytes that
a list of strings encodes to, whatever follows. From it `parse_req` accepts exactly the bodies
that `encode_request` produces, and each is the inverse of the other.

The lengths in `encode_request` are kept in 32 and 64 bits and never wrap: `requestLen_eq` says
that the loop computes the sum it looks like, or stops as soon as that exceeds the limit, for
arguments of any size.

Both directions have the same two limits, on the bytes of the body and on the number of strings.
Bytes that are left over after the last string are an error, so that a body has one reading.
-/

set_option autoImplicit false

namespace ApexDB

open Lib

theorem bufPatch_le (a b : Bytes) (k n : Nat) :
    bufPatch (a ++ (le 4 k ++ b)) a.length n = some (a ++ (le 4 n ++ b)) := by
  have hlen : a.length + 4 ≤ (a ++ (le 4 k ++ b)).length := by
    simp only [List.length_append, length_le]
    omega
  have hdrop : (a ++ (le 4 k ++ b)).drop (a.length + 4) = b := by
    rw [← List.append_assoc]
    exact List.drop_left' (by rw [List.length_append, length_le])
  rw [bufPatch, if_pos hlen, List.take_left, hdrop, List.append_assoc]

/-! ## 1. Parsing

A field that is read must be there in full. The lemmas are equivalences, so that one of them
serves for what is accepted and for what is refused.
-/

theorem readU32_iff {data rest : Bytes} {n : Nat} :
    readU32 data = some (n, rest) ↔ n < 2 ^ 32 ∧ data = le 4 n ++ rest := by
  unfold readU32
  split
  · rename_i hlen
    refine ⟨fun h => absurd h (by simp), fun ⟨_, h⟩ => ?_⟩
    rw [h, List.length_append, length_le] at hlen
    omega
  · rename_i hlen
    have htake : (data.take 4).length = 4 := by rw [List.length_take]; omega
    constructor
    · intro h
      cases h
      have hlt := ofLe_lt (data.take 4)
      have hle := le_ofLe (data.take 4)
      rw [htake] at hlt hle
      exact ⟨hlt, by rw [hle, List.take_append_drop]⟩
    · rintro ⟨hn, rfl⟩
      rw [List.take_append_of_le_length (by simp), List.drop_append_of_le_length (by simp),
        List.take_of_length_le (by simp), List.drop_of_length_le (by simp),
        ofLe_le_of_lt (by simpa using hn), List.nil_append]

theorem readStr_iff {data rest s : Bytes} {n : Nat} :
    readStr data n = some (s, rest) ↔ s.length = n ∧ data = s ++ rest := by
  unfold readStr
  split
  · rename_i hlen
    refine ⟨fun h => absurd h (by simp), fun ⟨h₁, h₂⟩ => ?_⟩
    rw [h₂, List.length_append] at hlen
    omega
  · rename_i hlen
    constructor
    · intro h
      cases h
      exact ⟨by rw [List.length_take]; omega, (List.take_append_drop n data).symm⟩
    · rintro ⟨rfl, rfl⟩
      rw [List.take_left, List.drop_left]

/-- **The loop of `parse_req` reads exactly what the strings encode to.** -/
theorem parseStrs_iff {n : Nat} {data rest : Bytes} {out : List Bytes} :
    parseStrs n data = some (out, rest) ↔
      out.length = n ∧ (∀ s ∈ out, s.length < 2 ^ 32) ∧ data = out.flatMap encodeStr ++ rest := by
  induction n generalizing data out with
  | zero =>
    simp only [parseStrs, Option.some.injEq, Prod.mk.injEq, List.length_eq_zero_iff]
    constructor
    · rintro ⟨rfl, rfl⟩
      simp
    · rintro ⟨rfl, -, h⟩
      exact ⟨rfl, h⟩
  | succ n ih =>
    simp only [parseStrs, Option.bind_eq_bind, Option.bind_eq_some_iff, Option.pure_def,
      Option.some.injEq, Prod.exists, Prod.mk.injEq]
    constructor
    · rintro ⟨len, d₁, h₁, s, d₂, h₂, rest', d₃, h₃, rfl, rfl⟩
      obtain ⟨hlen, rfl⟩ := readU32_iff.mp h₁
      obtain ⟨rfl, rfl⟩ := readStr_iff.mp h₂
      obtain ⟨rfl, hall, rfl⟩ := ih.mp h₃
      refine ⟨rfl, fun x hx => ?_, by simp [encodeStr]⟩
      rcases List.mem_cons.mp hx with rfl | hx
      · exact hlen
      · exact hall x hx
    · rintro ⟨hlen, hall, rfl⟩
      cases out with
      | nil => exact absurd hlen (by simp)
      | cons s out =>
        refine ⟨s.length, s ++ (out.flatMap encodeStr ++ rest), readU32_iff.mpr ⟨hall s (by simp), ?_⟩,
          s, out.flatMap encodeStr ++ rest, readStr_iff.mpr ⟨rfl, rfl⟩, out, rest,
          ih.mpr ⟨by simpa using hlen, fun x hx => hall x (by simp [hx]), rfl⟩, rfl, rfl⟩
        simp [encodeStr]

/-- The body of a request: the number of its strings, and then each with its length in front. -/
def requestBody (cmd : List Bytes) : Bytes := le 4 cmd.length ++ cmd.flatMap encodeStr

theorem length_requestBody (cmd : List Bytes) :
    (requestBody cmd).length = 4 + (cmd.map fun s => 4 + s.length).sum := by
  rw [requestBody, List.length_append, length_le, List.length_flatMap]
  simp [encodeStr]

theorem length_lt_requestBody {cmd : List Bytes} {s : Bytes} (h : s ∈ cmd) :
    s.length < (requestBody cmd).length := by
  rw [length_requestBody]
  induction cmd with
  | nil => cases h
  | cons x cmd ih =>
    rw [List.map_cons, List.sum_cons]
    rcases List.mem_cons.mp h with rfl | h
    · omega
    · have := ih h
      omega

/-- **What `parse_req` accepts**: the body of a vector within both limits, and nothing after it.
-/
theorem parseReq_iff {body : Bytes} {cmd : List Bytes} : parseReq body = some cmd ↔
    body = requestBody cmd ∧ body.length ≤ kMaxMsg ∧ cmd.length ≤ kMaxArgs := by
  have hmax : kMaxArgs < 2 ^ 32 := by decide
  have hmsg : kMaxMsg < 2 ^ 32 := by decide
  unfold parseReq
  constructor
  · intro h
    split at h
    · exact absurd h (by simp)
    · rename_i hlen
      obtain ⟨⟨n, d⟩, h₁, hbody⟩ := Option.bind_eq_some_iff.mp h
      obtain ⟨hn, rfl⟩ := readU32_iff.mp h₁
      simp only at hbody
      split at hbody
      · exact absurd hbody (by simp)
      · rename_i hargs
        obtain ⟨⟨out, rest⟩, h₂, hend⟩ := Option.bind_eq_some_iff.mp hbody
        simp only at hend h₂ hargs
        split at hend
        · rename_i hrest
          cases hend
          obtain ⟨rfl, -, rfl⟩ := parseStrs_iff.mp h₂
          rw [List.isEmpty_iff] at hrest
          rw [hrest, List.append_nil] at hlen ⊢
          exact ⟨rfl, by omega, by omega⟩
        · exact absurd hend (by simp)
  · rintro ⟨rfl, hlen, hargs⟩
    have hge : 4 ≤ (requestBody cmd).length := by rw [length_requestBody]; omega
    have h₁ : readU32 (requestBody cmd) = some (cmd.length, cmd.flatMap encodeStr) :=
      readU32_iff.mpr ⟨by omega, rfl⟩
    have h₂ : parseStrs cmd.length (cmd.flatMap encodeStr) = some (cmd, []) := by
      refine parseStrs_iff.mpr ⟨rfl, fun s hs => ?_, by simp⟩
      have := length_lt_requestBody hs
      omega
    rw [if_neg (by omega), h₁]
    simp only [Option.bind_eq_bind, Option.bind_some]
    rw [if_neg (by omega), h₂]
    rfl

/-! ## 2. Encoding

What a client puts on the wire, given that the test for its length neither wraps nor passes by
accident.
-/

theorem sizeSub_eq {a b : Nat} (ha : a < 2 ^ 64) (hb : b ≤ a) : sizeSub a b = a - b := by
  unfold sizeSub
  omega

/-- **The loop over the lengths neither wraps nor stops early**, as it tests before it adds. -/
theorem requestLen_eq (cmd : List Bytes) : ∀ len : Nat, len ≤ kMaxMsg →
    requestLen len cmd =
      if len + (cmd.map fun s => 4 + s.length).sum ≤ kMaxMsg then
        some (len + (cmd.map fun s => 4 + s.length).sum)
      else none := by
  have hmsg : kMaxMsg = 33554432 := by decide
  induction cmd with
  | nil => intro len hlen; simp [requestLen, hlen]
  | cons s cmd ih =>
    intro len hlen
    have h₁ : sizeSub kMaxMsg 4 = kMaxMsg - 4 := sizeSub_eq (by omega) (by omega)
    rw [requestLen, h₁, List.map_cons, List.sum_cons]
    by_cases hbig : kMaxMsg - 4 < len
    · rw [if_pos (.inl hbig), if_neg (by omega)]
    · have h₂ : sizeSub (sizeSub kMaxMsg len) 4 = kMaxMsg - len - 4 := by
        rw [sizeSub_eq (a := kMaxMsg) (by omega) hlen, sizeSub_eq (by omega) (by omega)]
      rw [h₂]
      by_cases hs : kMaxMsg - len - 4 < s.length
      · rw [if_pos (.inr hs), if_neg (by omega)]
      · have h₃ : (len + (4 + s.length % 2 ^ 32)) % 2 ^ 32 = len + (4 + s.length) := by omega
        rw [if_neg (by omega), h₃, ih _ (by omega), Nat.add_assoc]

/-- **What `encode_request` produces**: the length, the number of strings and the strings, or
nothing at all past either limit. -/
theorem encodeRequest_eq (cmd : List Bytes) : encodeRequest cmd =
    if cmd.length ≤ kMaxArgs ∧ (requestBody cmd).length ≤ kMaxMsg then
      le 4 (requestBody cmd).length ++ requestBody cmd
    else [] := by
  unfold encodeRequest
  by_cases hargs : kMaxArgs < cmd.length
  · rw [if_pos hargs, if_neg (by omega)]
  · rw [if_neg hargs, requestLen_eq cmd 4 (by decide), length_requestBody]
    by_cases hlen : 4 + (cmd.map fun s => 4 + s.length).sum ≤ kMaxMsg
    · rw [if_pos hlen, if_pos ⟨by omega, hlen⟩]
      simp [requestBody]
    · rw [if_neg hlen, if_neg fun h => hlen h.2]

/-- **The request codec is a bijection** between the vectors within the limits and the bodies
that `parse_req` accepts: when a request is encodable, that its encoding is a length and a body
of that length which parses back to it, and that what parses is the encoding of its result. -/
theorem request_codec_exact (cmd : List Bytes) (body : Bytes) :
    (encodeRequest cmd ≠ [] ↔
      cmd.length ≤ kMaxArgs ∧ 4 + (cmd.map fun s => 4 + s.length).sum ≤ kMaxMsg) ∧
    (encodeRequest cmd ≠ [] → ∃ b : Bytes, encodeRequest cmd = le 4 b.length ++ b ∧
      ofLe (le 4 b.length) = b.length ∧ parseReq b = some cmd) ∧
    (parseReq body = some cmd →
      encodeRequest cmd ≠ [] ∧ encodeRequest cmd = le 4 body.length ++ body) ∧
    ((parseReq body).isSome ↔ ∃ c, encodeRequest c ≠ [] ∧
      encodeRequest c = le 4 body.length ++ body ∧ ofLe (le 4 body.length) = body.length) := by
  have hmsg : kMaxMsg < 256 ^ 4 := by decide
  -- an encodable request
  have henc : ∀ c : List Bytes, c.length ≤ kMaxArgs ∧ (requestBody c).length ≤ kMaxMsg →
      encodeRequest c = le 4 (requestBody c).length ++ requestBody c :=
    fun c h => by rw [encodeRequest_eq, if_pos h]
  have hne : ∀ c : List Bytes, encodeRequest c ≠ [] ↔
      c.length ≤ kMaxArgs ∧ (requestBody c).length ≤ kMaxMsg := by
    intro c
    constructor
    · intro h
      by_contra hout
      exact h (by rw [encodeRequest_eq, if_neg hout])
    · intro h heq
      have := congrArg List.length ((henc c h).symm.trans heq)
      simp at this
  have hparse : ∀ c : List Bytes, parseReq body = some c →
      encodeRequest c ≠ [] ∧ encodeRequest c = le 4 body.length ++ body ∧ body.length ≤ kMaxMsg := by
    intro c h
    obtain ⟨rfl, hlen, hargs⟩ := parseReq_iff.mp h
    exact ⟨(hne c).mpr ⟨hargs, hlen⟩, henc c ⟨hargs, hlen⟩, hlen⟩
  refine ⟨by rw [hne, length_requestBody], fun h => ?_, fun h => ?_, fun h => ?_, fun h => ?_⟩
  · obtain ⟨hargs, hlen⟩ := (hne cmd).mp h
    exact ⟨requestBody cmd, henc cmd ⟨hargs, hlen⟩, ofLe_le_of_lt (by omega),
      parseReq_iff.mpr ⟨rfl, hlen, hargs⟩⟩
  · exact ⟨(hparse cmd h).1, (hparse cmd h).2.1⟩
  · obtain ⟨c, hc⟩ := Option.isSome_iff_exists.mp h
    obtain ⟨h₁, h₂, h₃⟩ := hparse c hc
    exact ⟨c, h₁, h₂, ofLe_le_of_lt (by omega)⟩
  · obtain ⟨c, h₁, h₂, h₃⟩ := h
    obtain ⟨hargs, hlen⟩ := (hne c).mp h₁
    rw [henc c ⟨hargs, hlen⟩] at h₂
    -- the two bodies stand behind headers of four bytes
    have hbody : requestBody c = body := (List.append_inj h₂ (by simp)).2
    rw [parseReq_iff.mpr ⟨hbody.symm, hbody ▸ hlen, hargs⟩]
    rfl

end ApexDB
