import ApexDB.ClientOutput
import ApexDB.Proof.Cli

/-!
# What the client prints

The reply is a value, and **the client prints this value**: a line for a nil, an error, a string
or a number, and for an array its length, its elements and its end (`Value.render`). The text of
an error or a string is printed up to its first zero byte.

What `print_response` returns does not depend on what it prints (`printResponseOut_fst`), so the
printer and the decoder of `Client.lean` are the same function, and what is known of the exit
code holds of the program that prints.

How a double is printed is a parameter, `fmtG`: what `%g` writes for given bits is a matter of
the C library.
-/

set_option autoImplicit false

namespace ApexDB

open Lib

/-! ## 1. The decoder is the printer

The two were translated separately, the decoder without any text; that they agree is proved by
the recursion they share, tag by tag.
-/

section Decoder

variable {data : Bytes}

theorem printTextOut_fst (head : Bytes) (hlen : data.length < 2 ^ 31) (pos : Nat) :
    (printTextOut head data pos).map Prod.fst = printText data pos := by
  unfold printTextOut printText
  split
  · rfl
  cases hu : u32At data pos with
  | none => rfl
  | some len =>
    simp only [Option.bind_eq_bind, Option.bind_some]
    by_cases hlong : data.length - (pos + 4) < len
    · rw [if_pos hlong, if_pos hlong]
      rfl
    · have hpos : ¬toInt32 len < 0 := by
        rw [toInt32_of_lt (by omega)]
        omega
      rw [if_neg hlong, if_neg hlong, if_neg hpos]
      rfl

theorem printNumberOut_fst (text : Nat → Bytes) (data : Bytes) :
    (printNumberOut text data).map Prod.fst = printNumber data := by
  unfold printNumberOut printNumber
  split
  · rfl
  · rfl

theorem printElementsOut_fst (print : Bytes → Option (Int × Bytes)) (print' : Bytes → Option Int) (data : Bytes)
    (hprint : ∀ pos, (print (data.drop pos)).map Prod.fst = print' (data.drop pos)) : ∀ n arrBytes : Nat,
    (printElementsOut print data n arrBytes).map Prod.fst = printElements print' data n arrBytes := by
  intro n
  induction n with
  | zero => exact fun _ => rfl
  | succ n ih =>
    intro arrBytes
    rw [printElementsOut, printElements]
    split
    · rfl
    rw [← hprint]
    cases print (data.drop arrBytes) with
    | none => rfl
    | some r =>
      simp only [Option.bind_eq_bind, Option.bind_some, Option.map_some]
      split
      · rfl
      rw [← ih]
      cases printElementsOut print data n (arrBytes + r.1.toNat) with
      | none => rfl
      | some r' => rfl

/-- **What `print_response` returns**, as far as the model of the decoder goes. -/
theorem printResponseOut_fst (fmtG : Nat → Bytes) : ∀ (levels : Nat) {data : Bytes}, data.length < 2 ^ 31 →
    (printResponseOut fmtG levels data).map Prod.fst = printResponse levels data := by
  intro levels
  induction levels with
  | zero => exact fun _ => rfl
  | succ levels ih =>
    intro data hlen
    cases data with
    | nil => rfl
    | cons tag rest =>
      rw [printResponseOut, printResponse]
      split
      · rfl
      split
      · exact printTextOut_fst _ hlen 5
      split
      · exact printTextOut_fst _ hlen 1
      split
      · exact printNumberOut_fst _ _
      split
      · exact printNumberOut_fst _ _
      split
      · split
        · rfl
        cases u32At (tag :: rest) 1 with
        | none => rfl
        | some len =>
          have hel := printElementsOut_fst (printResponseOut fmtG levels) (printResponse levels) (tag :: rest)
            (fun pos => ih (by rw [List.length_drop]; omega)) len 5
          simp only [Option.bind_eq_bind, Option.bind_some]
          rw [← hel]
          cases printElementsOut (printResponseOut fmtG levels) (tag :: rest) len 5 with
          | none => rfl
          | some r => rfl
      · rfl

end Decoder

/-! ## 2. What is printed of a value

The printer works by position in a buffer and returns how far it has come; `render` works on the
value. In an array the elements are printed one after the other, each from where the one before
has ended.
-/

namespace Value

mutual

def render (fmtG : Nat → Bytes) : Value → Bytes
  | nil => bytes "(nil)\n"
  | err code msg => bytes "(err) " ++ toDecimal (toInt32 code) ++ bytes " " ++ cText msg ++ bytes "\n"
  | str s => bytes "(str) " ++ cText s ++ bytes "\n"
  | int n => bytes "(int) " ++ toDecimal (toInt64 (n % 2 ^ 64).toNat) ++ bytes "\n"
  | dbl bits => bytes "(dbl) " ++ fmtG (bits % 2 ^ 64) ++ bytes "\n"
  | arr vs => bytes "(arr) len=" ++ toDecimal vs.length ++ bytes "\n" ++ (renderAll fmtG vs ++ bytes "(arr) end\n")

def renderAll (fmtG : Nat → Bytes) : List Value → Bytes
  | [] => []
  | v :: vs => v.render fmtG ++ renderAll fmtG vs

end

end Value

theorem printTextOut_append (head a s rest : Bytes) (h : a.length + 4 + s.length < 2 ^ 31) :
    printTextOut head (a ++ (le 4 s.length ++ (s ++ rest))) a.length =
      some (((a.length + 4 + s.length : Nat) : Int), head ++ cText s ++ bytes "\n") := by
  have hlen : (a ++ (le 4 s.length ++ (s ++ rest))).length = a.length + 4 + s.length + rest.length := by
    simp only [List.length_append, length_le]
    omega
  have htext : ((a ++ (le 4 s.length ++ (s ++ rest))).drop (a.length + 4)).take s.length = s := by
    rw [← List.append_assoc, List.drop_left' (by rw [List.length_append, length_le]), List.take_left]
  rw [printTextOut, if_neg (by omega), u32At_append a _ (by omega), hlen]
  simp only [Option.bind_eq_bind, Option.bind_some, htext]
  rw [if_neg (by omega), toInt32_of_lt (show s.length < 2 ^ 31 by omega), if_neg (by omega), toInt32_of_lt h]
  rfl

theorem printNumberOut_append (text : Nat → Bytes) (tag : UInt8) (n : Nat) (rest : Bytes) :
    printNumberOut text (tag :: (le 8 n ++ rest)) =
      some (((8 + 1 : Nat) : Int), text (n % 2 ^ 64) ++ bytes "\n") := by
  have hlen : ¬(tag :: (le 8 n ++ rest)).length < 1 + 8 := by
    rw [List.length_cons, List.length_append, length_le]
    omega
  have hnum : ofLe (((tag :: (le 8 n ++ rest)).drop 1).take 8) = n % 2 ^ 64 := by
    rw [List.drop_one, List.tail_cons, List.take_left' (length_le 8 n), ofLe_le]
    rfl
  rw [printNumberOut, if_neg hlen, hnum]
  rfl

mutual

/-- **The lines of a value are printed**, whatever follows its bytes. -/
theorem printResponseOut_encode (fmtG : Nat → Bytes) : ∀ (v : Value) (levels : Nat) (rest : Bytes),
    v.nesting < levels → v.encode.length < 2 ^ 31 →
    printResponseOut fmtG levels (v.encode ++ rest) = some ((v.encode.length : Int), v.render fmtG)
  | .nil, levels + 1, rest, _, _ => by
    rw [Value.render]
    rfl
  | .int n, levels + 1, rest, _, _ => by
    have hnum := printNumberOut_append (fun n => bytes "(int) " ++ toDecimal (toInt64 n)) Tag.int.byte
      (n % 2 ^ 64).toNat rest
    have hmod : (n % 2 ^ 64).toNat % 2 ^ 64 = (n % 2 ^ 64).toNat := Nat.mod_eq_of_lt (by omega)
    rw [hmod] at hnum
    simp only [Value.encode, List.cons_append, printResponseOut, List.length_cons, length_le, Value.render]
    exact hnum
  | .dbl bits, levels + 1, rest, _, _ => by
    have hnum := printNumberOut_append (fun n => bytes "(dbl) " ++ fmtG n) Tag.dbl.byte bits rest
    simp only [Value.encode, List.cons_append, printResponseOut, List.length_cons, length_le, Value.render]
    exact hnum
  | .err code msg, levels + 1, rest, _, h => by
    have hlen : (Value.err code msg).encode.length = 5 + 4 + msg.length := by
      simp [Value.encode, length_le]
      omega
    have hcode : toInt32 (ofLe ((((Value.err code msg).encode ++ rest).drop 1).take 4)) = toInt32 code := by
      simp only [Value.encode, List.cons_append, List.append_assoc, List.drop_one, List.tail_cons]
      rw [List.take_left' (length_le 4 code), ofLe_le]
      simp only [toInt32]
      omega
    have htext := printTextOut_append (bytes "(err) " ++ toDecimal (toInt32 code) ++ bytes " ")
      (Tag.err.byte :: le 4 code) msg rest (by simp only [List.length_cons, length_le]; omega)
    rw [hlen]
    simp only [List.length_cons, length_le, List.cons_append] at htext
    simp only [Value.encode, List.cons_append, List.append_assoc] at hcode
    simp only [Value.encode, List.cons_append, List.append_assoc, printResponseOut, hcode, Value.render]
    simp only [List.append_assoc] at htext
    exact htext
  | .str s, levels + 1, rest, _, h => by
    have hlen : (Value.str s).encode.length = 1 + 4 + s.length := by
      simp [Value.encode, length_le]
      omega
    have htext := printTextOut_append (bytes "(str) ") [Tag.str.byte] s rest
      (by simp only [List.length_cons, List.length_nil]; omega)
    rw [hlen]
    simp only [List.length_cons, List.length_nil, List.cons_append, List.nil_append] at htext
    simp only [Value.encode, List.cons_append, List.append_assoc, printResponseOut, Value.render]
    simp only [List.append_assoc] at htext
    exact htext
  | .arr vs, levels + 1, rest, hd, h => by
    have hcount := Value.length_le_encodeAll vs
    have hlen : (Value.arr vs).encode.length = 5 + (Value.encodeAll vs).length := by
      simp [Value.encode, length_le]
      omega
    rw [hlen] at h
    have hnest : Value.nestingAll vs ≤ levels := Nat.le_of_lt_succ hd
    have hu := u32At_append [Tag.arr.byte] (Value.encodeAll vs ++ rest)
      (show vs.length < 2 ^ 32 by omega)
    have hel := printElementsOut_encodeAll fmtG vs levels (Tag.arr.byte :: le 4 vs.length) rest hnest
      (by simp only [List.length_cons, length_le]; omega)
    simp only [List.length_cons, List.length_nil, length_le, List.cons_append,
      List.nil_append] at hu hel
    have hbig : ¬(Tag.arr.byte :: (le 4 vs.length ++ (Value.encodeAll vs ++ rest))).length < 1 + 4 := by
      rw [List.length_cons, List.length_append, length_le]
      omega
    rw [hlen]
    simp only [Value.encode, List.cons_append, List.append_assoc, printResponseOut, if_neg hbig, hu,
      Option.bind_eq_bind, Option.bind_some]
    rw [hel, Value.render]
    simp only [Option.bind_some, List.append_assoc]
    rfl

/-- The loop over the elements, behind a head of any length. -/
theorem printElementsOut_encodeAll (fmtG : Nat → Bytes) : ∀ (vs : List Value) (levels : Nat) (a rest : Bytes),
    Value.nestingAll vs ≤ levels → a.length + (Value.encodeAll vs).length < 2 ^ 31 →
    printElementsOut (printResponseOut fmtG levels) (a ++ (Value.encodeAll vs ++ rest)) vs.length a.length =
      some (((a.length + (Value.encodeAll vs).length : Nat) : Int),
        Value.renderAll fmtG vs ++ bytes "(arr) end\n")
  | [], levels, a, rest, _, h => by
    rw [Value.encodeAll, List.length_nil, Nat.add_zero] at h
    rw [List.length_nil, printElementsOut, toInt32_of_lt h, Value.renderAll]
    rfl
  | v :: vs, levels, a, rest, hd, h => by
    rw [Value.nestingAll] at hd
    rw [Value.encodeAll, List.length_append] at h
    have hv := printResponseOut_encode fmtG v levels (Value.encodeAll vs ++ rest) (by omega) (by omega)
    have hvs := printElementsOut_encodeAll fmtG vs levels (a ++ v.encode) rest (by omega)
      (by rw [List.length_append]; omega)
    rw [List.length_append, List.append_assoc] at hvs
    have hge : ¬(a ++ (v.encode ++ (Value.encodeAll vs ++ rest))).length < a.length := by
      rw [List.length_append]
      omega
    rw [Value.encodeAll, List.append_assoc, List.length_cons, printElementsOut, if_neg hge,
      List.drop_left, hv]
    simp only [Option.bind_eq_bind, Option.bind_some]
    rw [if_neg (by omega), Int.toNat_natCast, hvs, List.length_append, Nat.add_assoc, Value.renderAll,
      List.append_assoc]
    rfl

end

/-! ## 3. The program

`main` calls `tcp_rpc` and prints what has come back. Everything up to the reply is known from
the runs of the call; here it is joined with what is printed.
-/

theorem clientRun_exit (fmtG : Nat → Bytes) {response : Option Buffer}
    (hlen : ∀ r, response = some r → r.length < 2 ^ 31) :
    (clientRun fmtG response).map (fun r => (r.1, r.2.2)) = clientExit response := by
  cases response with
  | none => rfl
  | some response =>
    have hdrop : (response.drop 4).length < 2 ^ 31 := by
      have := hlen response rfl
      rw [List.length_drop]
      omega
    rw [clientRun, clientExit]
    split
    · rfl
    rw [← printResponseOut_fst fmtG kMaxDepth hdrop]
    cases printResponseOut fmtG kMaxDepth (response.drop 4) with
    | none => rfl
    | some r =>
      simp only [Option.bind_eq_bind, Option.bind_some, Option.map_some]
      split
      · rfl
      · rfl

/-- What the client prints of a response, and what it exits with. -/
theorem clientRun_frame (fmtG : Nat → Bytes) {v : Value} (hnest : v.nesting ≤ 64) :
    ∃ code, clientRun fmtG (some (frameOf v.encode)) = some (code, (sent v).render fmtG, []) ∧
      clientExit (some (frameOf v.encode)) = some (code, []) ∧ (code = 0 ↔ ¬(sent v).IsErr) := by
  have hmax := length_bodyOf v.encode
  have hbody : (bodyOf v.encode).length = (sent v).encode.length := by rw [bodyOf_encode]
  have hsmall : kMaxMsg < 2 ^ 31 - 4 := by decide
  have hlen := length_frameOf v.encode
  have hpos : 0 < (sent v).encode.length := List.length_pos_iff.mpr (Value.encode_ne_nil _)
  have hsent : (sent v).nesting < kMaxDepth := by
    unfold sent
    split
    · decide
    · exact Nat.lt_succ_of_le hnest
  have hprint := printResponseOut_encode fmtG (sent v) kMaxDepth [] hsent (by omega)
  rw [List.append_nil] at hprint
  have hdrop : (frameOf v.encode).drop 4 = (sent v).encode := by
    rw [frameOf, List.drop_left' (length_le 4 _), bodyOf_encode]
  -- the lines are printed whatever is then made of the number of bytes
  obtain ⟨code, text, hrun⟩ : ∃ code text,
      clientRun fmtG (some (frameOf v.encode)) = some (code, (sent v).render fmtG, text) := by
    rw [clientRun, if_neg (by omega), hdrop, hprint]
    simp only [Option.bind_eq_bind, Option.bind_some]
    split
    · exact ⟨_, _, rfl⟩
    · exact ⟨_, _, rfl⟩
  obtain ⟨code', hexit, -, hcode⟩ := clientExit_frame hnest
  have hsame := @clientRun_exit fmtG (some (frameOf v.encode)) fun r hr => (by cases hr; omega)
  rw [hrun, hexit] at hsame
  cases hsame
  exact ⟨code, hrun, hexit, hcode⟩

variable {σ : Type} (h : Handler σ)

/-- **The client prints the reply to its command.** In any run of the client and a server whose
handler answers with tagged values, whatever fails on the way: when `tcp_rpc` has returned, the
client prints nothing; or its command was executed, once, and what it prints is exactly the
lines of the value that was sent for the reply, with nothing on `stderr` and a code that tells
an error from the other values. -/
theorem client_prints (fmtG : Nat → Bytes)
    (hval : ∀ s cmd, ∃ v : Value, v.nesting ≤ 64 ∧ (h s cmd).2 = v.encode) (s₀ : σ) (connected : Bool)
    (cmd : List Bytes) (evs : List (NetEvent σ)) :
    ∃ N, evs.foldlM (Net.step h) ⟨tcpRpc connected cmd, { state := s₀ }, [], []⟩ = some N ∧
      ∀ result out, N.rpc = .returned result out →
        if result then ∃ s v code, N.session.calls = [(s, cmd)] ∧ (h s cmd).2 = v.encode ∧
          clientRun fmtG (some out) = some (code, (sent v).render fmtG, []) ∧
          clientExit (some out) = some (code, []) ∧ (code = 0 ↔ ¬(sent v).IsErr)
        else clientRun fmtG none = some (1, [], bytes "request failed\n") := by
  obtain ⟨N, hrun, hN⟩ := Net.run_inv h s₀ connected (encodeRequest cmd) evs
  refine ⟨N, hrun, fun result out hret => ?_⟩
  cases result with
  | false =>
    rw [if_neg Bool.false_ne_true]
    rfl
  | true =>
    obtain ⟨s, hcalls, rfl⟩ := hN.returned h hret
    obtain ⟨v, hnest, hv⟩ := hval s cmd
    obtain ⟨code, hprinted, hexit, hcode⟩ := clientRun_frame fmtG hnest
    rw [if_pos rfl, hv]
    exact ⟨s, v, code, hcalls, hv, hprinted, hexit, hcode⟩

/-- An array with a string in it that has a zero byte, and a number. -/
def shownValue : Value := .arr [.str [111, 107, 0, 33], .int (-2)]

def showHandler : Handler Nat := fun n _ => (n, shownValue.encode)

theorem client_prints_array :
    (∀ s cmd, ∃ v : Value, v.nesting ≤ 64 ∧ (showHandler s cmd).2 = v.encode) ∧
    ∃ (N : Net Nat) (v : Value),
      oneExchange.foldlM (Net.step showHandler) ⟨tcpRpc true [bytes "keys"], { state := 0 }, [], []⟩ = some N ∧
      N.rpc = .returned true (frameOf shownValue.encode) ∧ shownValue.encode = v.encode ∧
      (sent v).render (fun _ => []) = bytes "(arr) len=2\n(str) ok\n(int) -2\n(arr) end\n" ∧
      clientRun (fun _ => []) (some (frameOf shownValue.encode)) = some (0, (sent v).render fun _ => [], []) := by
  have hval : ∀ s cmd, ∃ v : Value, v.nesting ≤ 64 ∧ (showHandler s cmd).2 = v.encode :=
    fun _ _ => ⟨shownValue, by decide, rfl⟩
  obtain ⟨N, hrun, hend⟩ := client_prints showHandler (fun _ => []) hval 0 true [bytes "keys"] oneExchange
  have hret : N.rpc = .returned true (frameOf shownValue.encode) := by
    have hmap := congrArg (Option.map Net.rpc) hrun
    exact Option.some.inj (hmap.symm.trans (by decide +kernel))
  obtain ⟨s, v, code, -, hv, hprinted, -⟩ := hend _ _ hret
  have hlines : clientRun (fun _ => []) (some (frameOf shownValue.encode)) =
      some (0, bytes "(arr) len=2\n(str) ok\n(int) -2\n(arr) end\n", []) := by decide +kernel
  have hsame := hprinted.symm.trans hlines
  simp only [Option.some.injEq, Prod.mk.injEq] at hsame
  obtain ⟨rfl, hrender, -⟩ := hsame
  exact ⟨hval, N, v, hrun, hret, hv, hrender, hprinted⟩

end ApexDB
