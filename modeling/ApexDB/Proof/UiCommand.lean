import ApexDB.Proof.TcpRpc
import ApexDB.Proof.Response
import ApexDB.Proof.Ui

/-!
# One command of the user interface

`do_cmd` connects, writes one request and shows what it makes of one response. The window is a
client of the same server as any other, with two peculiarities: **its buffers are of 4096
bytes** where the protocol allows 32 MiB, and the sum of the lengths in `send_req` is a
`uint32_t` that nothing guards.

The request (sections 1 and 2) is compared with `encodeRequest`: within 4096 bytes `send_req`
writes the same bytes, above it writes none, and a sum that wraps below the limit makes it fill
`wbuf` past its end. `write_all` stops early only with bytes left over, and less than a request
is no request: **what is shown as `send failed` has not been executed**.

The response (section 3) is a value, by what the server writes. `read_res` shows its kind, its
number and exactly its text, whatever pieces it arrives in.
-/

set_option autoImplicit false

namespace ApexDB

open Lib

/-! ## 1. The buffer

The length is summed up first and compared with the limit, and then the strings are copied one
after the other without another look at the room that is left. So the sum is the only guard.
-/

theorem uiRequestLen_eq (cmd : List Bytes) : uiRequestLen cmd = (requestBody cmd).length % 2 ^ 32 := by
  -- the sum, from any length on
  have hsum : ∀ (cmd : List Bytes) (len : Nat),
      cmd.foldl (fun len s => (len + (4 + s.length % 2 ^ 32)) % 2 ^ 32) (len % 2 ^ 32) =
        (len + (cmd.map fun s => 4 + s.length).sum) % 2 ^ 32 := by
    intro cmd
    induction cmd with
    | nil => exact fun len => rfl
    | cons s cmd ih =>
      intro len
      have hstep : (len % 2 ^ 32 + (4 + s.length % 2 ^ 32)) % 2 ^ 32 = (len + (4 + s.length)) % 2 ^ 32 := by
        omega
      rw [List.foldl_cons, hstep, ih, List.map_cons, List.sum_cons, Nat.add_assoc]
  rw [length_requestBody]
  exact hsum cmd 4

/-- The room of `wbuf` is enough for the strings, or one of the copies passes its end. -/
theorem uiPutStrs_eq (cmd : List Bytes) : ∀ wbuf : Bytes, wbuf.length ≤ 4 + kUiMaxMsg →
    cmd.foldlM uiPutStr wbuf =
      if wbuf.length + (cmd.flatMap encodeStr).length ≤ 4 + kUiMaxMsg then some (wbuf ++ cmd.flatMap encodeStr)
      else none := by
  induction cmd with
  | nil =>
    intro wbuf hroom
    rw [List.flatMap_nil, List.append_nil, List.length_nil, if_pos (by omega)]
    rfl
  | cons s cmd ih =>
    intro wbuf hroom
    have hlen : ((s :: cmd).flatMap encodeStr).length = 4 + s.length + (cmd.flatMap encodeStr).length := by
      rw [List.flatMap_cons, List.length_append, encodeStr, List.length_append, length_le]
    have hput : uiPutStr wbuf s =
        if wbuf.length + (4 + s.length) ≤ 4 + kUiMaxMsg then some (wbuf ++ encodeStr s) else none := by
      rw [uiPutStr, uiPut, length_le]
      by_cases hfour : wbuf.length + 4 ≤ 4 + kUiMaxMsg
      · rw [if_pos hfour]
        simp only [Option.bind_eq_bind, Option.bind_some, uiPut, List.length_append, length_le, Nat.add_assoc,
          List.append_assoc, encodeStr]
      · rw [if_neg hfour, if_neg (by omega)]
        rfl
    rw [List.foldlM_cons, hput, hlen]
    by_cases hfits : wbuf.length + (4 + s.length) ≤ 4 + kUiMaxMsg
    · have hlen' : (wbuf ++ encodeStr s).length = wbuf.length + (4 + s.length) := by
        rw [List.length_append, encodeStr, List.length_append, length_le]
      rw [if_pos hfits]
      simp only [Option.bind_eq_bind, Option.bind_some]
      rw [ih _ (by omega), hlen', List.flatMap_cons, List.append_assoc, Nat.add_assoc]
    · rw [if_neg hfits, if_neg (by omega)]
      rfl

/-- What fits the buffer is within the limits of the protocol. -/
theorem encodeRequest_of_fits {cmd : List Bytes} (h : (requestBody cmd).length ≤ kUiMaxMsg) :
    encodeRequest cmd = le 4 (requestBody cmd).length ++ requestBody cmd := by
  have hcount : ∀ cmd : List Bytes, cmd.length ≤ (requestBody cmd).length := by
    intro cmd
    rw [length_requestBody]
    induction cmd with
    | nil => exact Nat.zero_le _
    | cons s cmd ih =>
      rw [List.map_cons, List.sum_cons, List.length_cons]
      omega
  have hargs : kUiMaxMsg ≤ kMaxArgs := by decide
  have hmsg : kUiMaxMsg ≤ kMaxMsg := by decide
  rw [encodeRequest_eq, if_pos ⟨(hcount cmd).trans (h.trans hargs), h.trans hmsg⟩]

theorem encodeRequest_ne_nil_of_fits {cmd : List Bytes} (h : (requestBody cmd).length ≤ kUiMaxMsg) :
    encodeRequest cmd ≠ [] := by
  rw [encodeRequest_of_fits h]
  intro hnil
  have := congrArg List.length hnil
  simp at this

/-- **What `send_req` writes**: the request, nothing, or past the end of its buffer. -/
theorem sendReq_eq (cmd : List Bytes) : sendReq cmd =
    if (requestBody cmd).length ≤ kUiMaxMsg then some (some (encodeRequest cmd))
    else if (requestBody cmd).length % 2 ^ 32 ≤ kUiMaxMsg then none
    else some none := by
  have hmax : kUiMaxMsg = 4096 := rfl
  have hbody : (requestBody cmd).length = 4 + (cmd.flatMap encodeStr).length := by
    rw [requestBody, List.length_append, length_le]
  rw [sendReq, uiRequestLen_eq]
  by_cases hrefused : kUiMaxMsg < (requestBody cmd).length % 2 ^ 32
  · have := Nat.mod_le (requestBody cmd).length (2 ^ 32)
    rw [if_pos hrefused, if_neg (by omega), if_neg (by omega)]
  · have hhead : ∀ len, uiPut [] (le 4 len) = some (le 4 len) := by
      intro len
      rw [uiPut, if_pos (by rw [length_le]; decide), List.nil_append]
    have hcount : ∀ len, uiPut (le 4 len) (le 4 cmd.length) = some (le 4 len ++ le 4 cmd.length) := by
      intro len
      rw [uiPut, if_pos (by rw [length_le, length_le]; decide)]
    have height : ∀ len, (le 4 len ++ le 4 cmd.length).length = 8 := by
      intro len
      rw [List.length_append, length_le, length_le]
    rw [if_neg hrefused, if_pos (Nat.le_of_not_lt hrefused)]
    simp only [hhead, Option.bind_eq_bind, Option.bind_some, hcount]
    rw [uiPutStrs_eq cmd _ (by rw [height]; decide), height]
    by_cases hfits : (requestBody cmd).length ≤ kUiMaxMsg
    · rw [if_pos hfits, if_pos (by omega), encodeRequest_of_fits hfits, Nat.mod_eq_of_lt (by omega)]
      simp only [Option.bind_some, Option.pure_def]
      rw [List.append_assoc, ← requestBody, List.take_of_length_le (by rw [List.length_append, length_le])]
    · rw [if_neg hfits, if_neg (by omega)]
      rfl

/-! ## 2. The request

`write_all` gives up at the first error, and then the command ends with `send failed`. What the
server has got by then is a front of the request.
-/

/-- What `write_all` has written is a front of what it was given: all of it, or not all of it.
-/
theorem writeAll_front : ∀ (writes : List (Option Nat)) (buf : Bytes), ∃ left,
    buf = (writeAll writes buf).2 ++ left ∧ ((writeAll writes buf).1 = true ↔ left = []) := by
  intro writes
  induction writes with
  | nil =>
    intro buf
    cases buf with
    | nil => exact ⟨[], rfl, by simp [writeAll]⟩
    | cons b buf => exact ⟨b :: buf, rfl, by simp [writeAll]⟩
  | cons written writes ih =>
    intro buf
    cases buf with
    | nil => exact ⟨[], rfl, by simp [writeAll]⟩
    | cons b buf =>
      cases written with
      | none => exact ⟨b :: buf, rfl, by simp [writeAll]⟩
      | some n =>
        by_cases hn : n = 0
        · exact ⟨b :: buf, by simp [writeAll, hn], by simp [writeAll, hn]⟩
        · obtain ⟨left, hleft, hall⟩ := ih ((b :: buf).drop n)
          simp only [writeAll, if_neg hn]
          refine ⟨left, ?_, hall⟩
          rw [List.append_assoc, ← hleft, List.take_append_drop]

/-- `write` that always takes something takes everything. -/
theorem writeAll_all : ∀ (writes : List (Option Nat)) (buf : Bytes), buf.length ≤ writes.length →
    (∀ w ∈ writes, ∃ n, w = some n ∧ 0 < n) → (writeAll writes buf).1 = true := by
  intro writes
  induction writes with
  | nil =>
    intro buf hlen _
    rw [List.eq_nil_of_length_eq_zero (Nat.le_zero.mp hlen)]
    rfl
  | cons written writes ih =>
    intro buf hlen htakes
    cases buf with
    | nil => rfl
    | cons b buf =>
      obtain ⟨n, rfl, hn⟩ := htakes written List.mem_cons_self
      simp only [writeAll, if_neg (Nat.pos_iff_ne_zero.mp hn)]
      refine ih _ ?_ fun w hw => htakes w (List.mem_cons_of_mem _ hw)
      rw [List.length_drop]
      simp only [List.length_cons] at hlen ⊢
      omega

/-- **Less than a request is no request.** -/
theorem items_of_less {cmd : List Bytes} {x y : Bytes} (hx : encodeRequest cmd = x ++ y) (hy : y ≠ []) :
    (requestCutter.drain x).items = [] := by
  have hne : encodeRequest cmd ≠ [] := by
    rw [hx]
    exact fun h => hy (List.append_eq_nil_iff.mp h).2
  cases hc : requestCutter.cut x with
  | more => rw [Cutter.drain_more hc]
  | bad => rw [Cutter.drain_bad hc]
  | item c rest =>
    have hcut : Cut.item cmd [] = .item c (rest ++ y) :=
      (cutRequest_encode hne).symm.trans (hx ▸ requestCutter.item_append hc y)
    injection hcut with _ hrest
    exact absurd (List.append_eq_nil_iff.mp hrest.symm).2 hy

theorem items_of_request {cmd : List Bytes} (hne : encodeRequest cmd ≠ []) :
    (requestCutter.drain (encodeRequest cmd)).items = [cmd] := by
  rw [Cutter.drain_item (cutRequest_encode hne), drain_nil]

/-! ## 3. The response

`read_res` is compared with the value that the server has sent, in the frame it has sent it in.
A double is shown as `%f` writes it, which is the parameter `fmtF`.
-/

namespace Value

def uiReply : Value → UiReply
  | nil => .fixed "(nil)"
  | err code msg => .err (toInt32 code) ⟨9, msg.length⟩
  | str s => .str ⟨5, s.length⟩
  | int n => .int (toInt64 (n % 2 ^ 64).toNat)
  | dbl bits => .dbl (bits % 2 ^ 64)
  | arr _ => .fixed "(arr) ..."

/-- **The text of a value in the window**, before the cut at a zero byte: the kind of the value,
its number, and all of its text. An array is not unfolded. -/
def uiChars (fmtF : Nat → Bytes) : Value → Bytes
  | nil => bytes "(nil)"
  | err code msg => bytes "(err) " ++ toDecimal (toInt32 code) ++ bytes " " ++ msg
  | str s => s
  | int n => bytes "(int) " ++ toDecimal (toInt64 (n % 2 ^ 64).toNat)
  | dbl bits => bytes "(dbl) " ++ fmtF (bits % 2 ^ 64)
  | arr _ => bytes "(arr) ..."

end Value

theorem slice_of_append {a b c : Bytes} {pos k : Nat} (ha : a.length = pos) (hb : b.length = k) :
    ((a ++ (b ++ c)).drop pos).take k = b := by
  rw [List.drop_left' ha, List.take_left' hb]

theorem uiText_of_append {a s : Bytes} (data : Bytes) (pos : Nat) (hdata : data = a ++ (le 4 s.length ++ s))
    (ha : a.length = pos) (hlen : data.length ≤ kUiMaxMsg) :
    uiText data.length data pos = some ⟨pos + 4, s.length⟩ ∧ UiText.read ⟨pos + 4, s.length⟩ data = some s := by
  have hmax : kUiMaxMsg = 4096 := rfl
  subst hdata
  simp only [List.length_append, length_le, ha] at hlen
  have hslen : ofLe (le 4 s.length) = s.length := ofLe_le_of_lt (by omega)
  constructor
  · rw [uiText, slice_of_append ha (length_le 4 _), hslen]
    simp only [List.length_append, length_le, ha]
    rw [if_neg (by omega), if_neg (by omega)]
  · rw [UiText.read, if_pos (by simp only [List.length_append, length_le, ha]; omega), ← List.append_assoc,
      List.drop_left' (by rw [List.length_append, ha, length_le]), List.take_length]

/-- **A value within the buffer is shown as what it is.** -/
theorem uiDecode_encode (fmtF : Nat → Bytes) (v : Value) (hlen : v.encode.length ≤ kUiMaxMsg) :
    uiDecode v.encode.length v.encode = v.uiReply ∧ v.uiReply.chars fmtF v.encode = some (v.uiChars fmtF) := by
  cases v with
  | nil => exact ⟨rfl, rfl⟩
  | arr vs => exact ⟨rfl, rfl⟩
  | err code msg =>
    have hcode : toInt32 (ofLe (((Value.err code msg).encode.drop 1).take 4)) = toInt32 code := by
      have hslice : ((Value.err code msg).encode.drop 1).take 4 = le 4 code :=
        slice_of_append (a := [1]) rfl (length_le 4 code)
      rw [hslice, ofLe_le]
      simp only [toInt32]
      omega
    obtain ⟨htext, hslice⟩ := uiText_of_append (a := 1 :: le 4 code) (s := msg) (Value.err code msg).encode 5
      rfl (by rw [List.length_cons, length_le]) hlen
    refine ⟨?_, ?_⟩
    · simp only [Value.encode] at htext hcode ⊢
      rw [uiDecode, if_neg (by decide), if_pos (by decide), htext]
      exact congrArg (UiReply.err · _) hcode
    · rw [Value.uiReply, UiReply.chars, hslice]
      rfl
  | str s =>
    obtain ⟨htext, hslice⟩ := uiText_of_append (a := [2]) (s := s) (Value.str s).encode 1 rfl rfl hlen
    refine ⟨?_, hslice⟩
    simp only [Value.encode] at htext ⊢
    rw [uiDecode, if_neg (by decide), if_neg (by decide), if_pos (by decide), htext]
    rfl
  | int n =>
    have hslice : ((Value.int n).encode.drop 1).take 8 = le 8 (n % 2 ^ 64).toNat :=
      List.take_of_length_le (by rw [Value.encode, List.drop_one, List.tail_cons, length_le])
    refine ⟨?_, rfl⟩
    simp only [Value.encode] at hslice ⊢
    rw [uiDecode, if_neg (by decide), if_neg (by decide), if_neg (by decide), if_pos (by decide),
      if_neg (by rw [List.length_cons, length_le]; decide), hslice, ofLe_le_of_lt (by omega)]
    rfl
  | dbl bits =>
    have hslice : ((Value.dbl bits).encode.drop 1).take 8 = le 8 bits :=
      List.take_of_length_le (by rw [Value.encode, List.drop_one, List.tail_cons, length_le])
    refine ⟨?_, rfl⟩
    simp only [Value.encode] at hslice ⊢
    rw [uiDecode, if_neg (by decide), if_neg (by decide), if_neg (by decide), if_neg (by decide),
      if_pos (by decide), if_neg (by rw [List.length_cons, length_le]; decide), hslice, ofLe_le]
    rfl

/-- `read_full` puts together what arrives in pieces. -/
theorem uiReadFull_chunks (chunks : List Bytes) (rest : List (Option Bytes)) (hne : ∀ c ∈ chunks, c ≠ []) :
    uiReadFull (chunks.map some ++ rest) chunks.flatten.length = some (chunks.flatten, rest) := by
  induction chunks with
  | nil => rw [List.map_nil, List.nil_append, List.flatten_nil, List.length_nil, uiReadFull]
  | cons c chunks ih =>
    have hc : c ≠ [] := hne c List.mem_cons_self
    obtain ⟨n, hn⟩ : ∃ n, (c :: chunks).flatten.length = n + 1 := by
      refine Nat.exists_eq_succ_of_ne_zero fun h => hc ?_
      exact (List.append_eq_nil_iff.mp (List.eq_nil_of_length_eq_zero h)).1
    have hlen : n + 1 = c.length + chunks.flatten.length := by
      rw [← hn, List.flatten_cons, List.length_append]
    have htake : c.take (n + 1) = c := List.take_of_length_le (by omega)
    rw [hn, List.map_cons, List.cons_append, uiReadFull, htake, if_neg (by rwa [List.isEmpty_iff]),
      show n + 1 - c.length = chunks.flatten.length by omega,
      ih fun c hc => hne c (List.mem_cons_of_mem _ hc)]
    rfl

/-- A response arrives, its header and its body in any pieces. -/
def Arrives (frame : Bytes) (reads : List (Option Bytes)) : Prop :=
  ∃ (hdr chunks : List Bytes) (rest : List (Option Bytes)), reads = hdr.map some ++ (chunks.map some ++ rest) ∧
    (∀ c ∈ hdr ++ chunks, c ≠ []) ∧ hdr.flatten = frame.take 4 ∧ chunks.flatten = frame.drop 4

/-- **What `read_res` returns when a response arrives**, whatever the pieces. -/
theorem readRes_arrives (fmtF : Nat → Bytes) (v : Value) {reads : List (Option Bytes)}
    (h : Arrives (frameOf v.encode) reads) :
    (readRes reads).chars fmtF (uiBody reads) = some (if kUiMaxMsg < (sent v).encode.length then
      bytes "response too long" else (sent v).uiChars fmtF) := by
  obtain ⟨hdr, chunks, rest, rfl, hne, hhdr, hchunks⟩ := h
  have hlen := ofLe_take_frameOf v.encode
  rw [← hhdr, bodyOf_encode] at hlen
  rw [frameOf, bodyOf_encode, List.drop_left' (length_le 4 _)] at hchunks
  have hfour : hdr.flatten.length = 4 := by
    rw [hhdr, frameOf, List.take_left' (length_le 4 _), length_le]
  have hread := uiReadFull_chunks hdr (chunks.map some ++ rest) fun c hc => hne c (List.mem_append_left _ hc)
  have hbody := uiReadFull_chunks chunks rest fun c hc => hne c (List.mem_append_right _ hc)
  rw [hfour] at hread
  rw [hchunks] at hbody
  by_cases hlong : kUiMaxMsg < (sent v).encode.length
  · rw [if_pos hlong]
    simp only [readRes, hread, hlen, if_pos hlong]
    rfl
  · obtain ⟨hdecode, hchars⟩ := uiDecode_encode fmtF _ (Nat.le_of_not_lt hlong)
    rw [if_neg hlong, readRes_eq hread (by omega) (hlen ▸ hbody), hlen, hdecode]
    simp only [uiBody, hread, hlen, if_neg hlong, hbody]
    exact hchars

/-- A reply has no text exactly if it is made of bytes behind the body. -/
theorem UiReply.chars_eq_none (fmtF : Nat → Bytes) (data : Bytes) (reply : UiReply) :
    reply.chars fmtF data = none ↔ ∃ text, reply.text? = some text ∧ ¬text.Inside data.length := by
  have hread : ∀ text : UiText, text.read data = none ↔ ¬text.Inside data.length := by
    intro text
    rw [UiText.read, UiText.Inside]
    split
    · rename_i hin
      exact ⟨fun h => (by cases h), fun h => absurd hin h⟩
    · rename_i hout
      exact ⟨fun _ => hout, fun _ => rfl⟩
  cases reply with
  | fixed text => exact ⟨fun h => (by cases h), fun h => by obtain ⟨_, h, -⟩ := h; cases h⟩
  | int v => exact ⟨fun h => (by cases h), fun h => by obtain ⟨_, h, -⟩ := h; cases h⟩
  | dbl bits => exact ⟨fun h => (by cases h), fun h => by obtain ⟨_, h, -⟩ := h; cases h⟩
  | err code text => simp [UiReply.chars, UiReply.text?, hread]
  | str text => simp [UiReply.chars, UiReply.text?, hread]

/-! ## 4. The command

The cases follow the source: no connection, a request that is not written, a response that does
not arrive, and one that does.
-/

section Command

variable (fmtF : Nat → Bytes) (writes : List (Option Nat)) (reads : List (Option Bytes)) (cmd : List Bytes)

theorem doCmd_connected : doCmd fmtF true writes reads cmd =
      if (requestBody cmd).length ≤ kUiMaxMsg then
        let w := writeAll writes (encodeRequest cmd)
        if w.1 = true then ((readRes reads).chars fmtF (uiBody reads)).map fun res => (cText res, w.2)
        else some (bytes "send failed", w.2)
      else if (requestBody cmd).length % 2 ^ 32 ≤ kUiMaxMsg then none
      else some (bytes "send failed", []) := by
  rw [doCmd, if_neg (by decide), sendReq_eq]
  by_cases hfits : (requestBody cmd).length ≤ kUiMaxMsg
  · rw [if_pos hfits, if_pos hfits]
    simp only [Option.bind_eq_bind, Option.bind_some]
    by_cases hall : (writeAll writes (encodeRequest cmd)).1 = true
    · rw [if_pos hall, if_pos hall]
      cases (readRes reads).chars fmtF (uiBody reads) with
      | none => rfl
      | some res => rfl
    · rw [if_neg hall, if_neg hall]
      rfl
  · rw [if_neg hfits, if_neg hfits]
    by_cases hwraps : (requestBody cmd).length % 2 ^ 32 ≤ kUiMaxMsg
    · rw [if_pos hwraps, if_pos hwraps]
      rfl
    · rw [if_neg hwraps, if_neg hwraps]
      rfl

/-- With room in `wbuf` and a connection that takes bytes, all depends on the response. -/
theorem doCmd_taken (hfits : (requestBody cmd).length ≤ kUiMaxMsg)
    (henough : (encodeRequest cmd).length ≤ writes.length) (htakes : ∀ w ∈ writes, ∃ n, w = some n ∧ 0 < n) :
    doCmd fmtF true writes reads cmd =
      ((readRes reads).chars fmtF (uiBody reads)).map fun res => (cText res, encodeRequest cmd) := by
  have hall := writeAll_all writes (encodeRequest cmd) henough htakes
  obtain ⟨left, hleft, hiff⟩ := writeAll_front writes (encodeRequest cmd)
  rw [hiff.mp hall, List.append_nil] at hleft
  rw [doCmd_connected, if_pos hfits]
  simp only [if_pos hall, ← hleft]

/-- **When a command leaves one of its buffers**: with a connection, and if the length of the
request wraps below the limit, or the request is out and the response announces a text that ends
behind its body. -/
theorem doCmd_fault_iff (connected : Bool) : doCmd fmtF connected writes reads cmd = none ↔ connected = true ∧
    (kUiMaxMsg < (requestBody cmd).length ∧ (requestBody cmd).length % 2 ^ 32 ≤ kUiMaxMsg ∨
      (requestBody cmd).length ≤ kUiMaxMsg ∧ (writeAll writes (encodeRequest cmd)).1 = true ∧
        ∃ text, (readRes reads).text? = some text ∧ ¬text.Inside (uiBody reads).length) := by
  cases connected with
  | false => exact ⟨fun h => (by cases h), fun h => (by cases h.1)⟩
  | true =>
    rw [doCmd_connected]
    split
    · rename_i hfits
      dsimp only
      split
      · rename_i hall
        rw [Option.map_eq_none_iff, UiReply.chars_eq_none]
        refine ⟨fun h => ⟨rfl, .inr ⟨hfits, hall, h⟩⟩, fun h => ?_⟩
        rcases h.2 with ⟨hlong, -⟩ | ⟨-, -, hout⟩
        · exact absurd hfits (Nat.not_le_of_lt hlong)
        · exact hout
      · rename_i hnot
        refine ⟨fun h => (by cases h), fun h => ?_⟩
        rcases h.2 with ⟨hlong, -⟩ | ⟨-, hall, -⟩
        · exact absurd hfits (Nat.not_le_of_lt hlong)
        · exact absurd hall hnot
    · rename_i hlong
      split
      · rename_i hwraps
        exact ⟨fun _ => ⟨rfl, .inl ⟨Nat.lt_of_not_le hlong, hwraps⟩⟩, fun _ => rfl⟩
      · rename_i hrefused
        refine ⟨fun h => (by cases h), fun h => ?_⟩
        rcases h.2 with ⟨-, hwraps⟩ | ⟨hfits, -, -⟩
        · exact absurd hwraps hrefused
        · exact absurd hfits hlong

/-- **What a command that ends has shown, and what the server has got.** It has no request if
one of the two failures is shown, and this one otherwise. -/
theorem doCmd_fates {connected : Bool} {shown written : Bytes}
    (h : doCmd fmtF connected writes reads cmd = some (shown, written)) :
    (shown = bytes "connect failed" ∨ shown = bytes "send failed") ∧ (requestCutter.drain written).items = [] ∨
      (∃ res, (readRes reads).chars fmtF (uiBody reads) = some res ∧ shown = cText res) ∧
        (requestCutter.drain written).items = [cmd] := by
  have hnil : (requestCutter.drain []).items = [] := by rw [drain_nil]
  cases connected with
  | false =>
    cases h
    exact .inl ⟨.inl rfl, hnil⟩
  | true =>
    rw [doCmd_connected] at h
    split at h
    · rename_i hfits
      obtain ⟨left, hleft, hall⟩ := writeAll_front writes (encodeRequest cmd)
      dsimp only at h
      split at h
      · rename_i hdone
        obtain ⟨res, hres, heq⟩ := Option.map_eq_some_iff.mp h
        cases heq
        rw [hall.mp hdone, List.append_nil] at hleft
        refine .inr ⟨⟨res, hres, rfl⟩, ?_⟩
        rw [← hleft]
        exact items_of_request (encodeRequest_ne_nil_of_fits hfits)
      · rename_i hnot
        cases h
        exact .inl ⟨.inr rfl, items_of_less hleft fun hdone => hnot (hall.mpr hdone)⟩
    · split at h
      · cases h
      · cases h
        exact .inl ⟨.inr rfl, hnil⟩

end Command

end ApexDB
