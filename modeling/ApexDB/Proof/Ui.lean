import ApexDB.Ui

/-!
# What the user interface makes a text of

A body of tag 1 or 2 **announces** a text: where it starts and how long it is. `read_res`
compares the end of it with the length of the body, and computes that end as a `uint32_t`. So
the test is right exactly as long as the end is below `2 ^ 32` (`UiText.fits_iff`); an announced
length at the upper end of the range passes it, and the text is taken from behind the buffer.

A server of this repository does not send such a body. The window connects to whatever listens
on the port, so the length is still one that it has been told by somebody else.
-/

set_option autoImplicit false

namespace ApexDB

open Lib

/-! ## 1. The frame

The header and the body are read in pieces, and what is decoded has the length that the header
says, 4096 at most.
-/

theorem uiReadFull_length : ∀ (reads : List (Option Bytes)) (n : Nat) {data : Bytes}
    {rest : List (Option Bytes)}, uiReadFull reads n = some (data, rest) → data.length = n := by
  intro reads
  induction reads with
  | nil =>
    intro n data rest h
    cases n with
    | zero =>
      cases h
      rfl
    | succ n => cases h
  | cons read reads ih =>
    intro n data rest h
    cases n with
    | zero =>
      cases h
      rfl
    | succ n =>
      cases read with
      | none => cases h
      | some chunk =>
        simp only [uiReadFull] at h
        split at h
        · cases h
        · obtain ⟨⟨more, left⟩, hmore, heq⟩ := Option.map_eq_some_iff.mp h
          cases heq
          have hle : (chunk.take (n + 1)).length ≤ n + 1 := List.length_take_le _ _
          rw [List.length_append, ih _ hmore]
          omega

theorem readRes_eq {reads rest rest' : List (Option Bytes)} {hdr data : Bytes}
    (hhdr : uiReadFull reads 4 = some (hdr, rest)) (hlen : ofLe hdr ≤ kUiMaxMsg)
    (hbody : uiReadFull rest (ofLe hdr) = some (data, rest')) :
    readRes reads = uiDecode (ofLe hdr) data := by
  simp only [readRes, hhdr, hbody]
  rw [if_neg (Nat.not_lt.mpr hlen)]

/-! ## 2. The text of a body

An error has its text behind a code and a length, a string behind a length. The test for room in
front of the length is made by the source and is right.
-/

/-- The text `std::string` is built from. -/
def UiReply.text? : UiReply → Option UiText
  | .err _ text => some text
  | .str text => some text
  | _ => none

/-- The text whose length stands at `pos`, if the body reaches that far. -/
def textAt (data : Bytes) (pos : Nat) : Option UiText :=
  if pos + 4 ≤ data.length then some ⟨pos + 4, ofLe ((data.drop pos).take 4)⟩ else none

/-- The text that a body announces: the error and the string tags have one. -/
def announced (data : Bytes) : Option UiText :=
  if data.head? = some 1 then textAt data 5
  else if data.head? = some 2 then textAt data 1
  else none

def UiText.Inside (text : UiText) (len : Nat) : Prop := text.offset + text.slen ≤ len

def UiText.Fits (text : UiText) : Prop := text.offset + text.slen < 2 ^ 32

instance (text : UiText) (len : Nat) : Decidable (text.Inside len) := Nat.decLe _ _

instance (text : UiText) : Decidable text.Fits := Nat.decLt _ _

theorem uiText_textAt (data : Bytes) (pos : Nat) :
    uiText data.length data pos = (textAt data pos).filter fun text =>
      (text.offset + text.slen) % 2 ^ 32 ≤ data.length := by
  unfold uiText textAt
  by_cases hpos : pos + 4 ≤ data.length
  · rw [if_neg (Nat.not_lt.mpr hpos), if_pos hpos, Option.filter_some]
    simp only [decide_eq_true_eq]
    by_cases hend : (pos + 4 + ofLe ((data.drop pos).take 4)) % 2 ^ 32 ≤ data.length
    · rw [if_neg (Nat.not_lt.mpr hend), if_pos hend]
    · rw [if_pos (Nat.lt_of_not_le hend), if_neg hend]
  · rw [if_pos (Nat.lt_of_not_le hpos), if_neg hpos, Option.filter_none]

/-- A text that is announced has room for its length in front, and a length of 32 bits. -/
theorem announced_bounds {data : Bytes} {text : UiText} (h : announced data = some text) :
    text.offset ≤ data.length ∧ text.slen < 2 ^ 32 := by
  have hat : ∀ pos, textAt data pos = some text →
      text.offset ≤ data.length ∧ text.slen < 2 ^ 32 := by
    intro pos hpos
    unfold textAt at hpos
    split at hpos
    · rename_i hle
      cases hpos
      exact ⟨hle, ofLe_slice_lt data pos 4⟩
    · cases hpos
  unfold announced at h
  split at h
  · exact hat 5 h
  · split at h
    · exact hat 1 h
    · cases h

/-- **The answer to a body**: the text is the announced one, and it is kept by the test of its
end modulo `2 ^ 32`; a body of tag 1 or 2 without one is a bad response. -/
theorem uiDecode_text (data : Bytes) :
    (uiDecode data.length data).text? = (announced data).filter (fun text =>
      (text.offset + text.slen) % 2 ^ 32 ≤ data.length) ∧
    ((data.head? = some 1 ∨ data.head? = some 2) → (uiDecode data.length data).text? = none →
      uiDecode data.length data = .bad) := by
  cases data with
  | nil => exact ⟨rfl, fun h => by simp at h⟩
  | cons tag body =>
    simp only [announced, List.head?_cons, Option.some.injEq, uiDecode, uiText_textAt]
    by_cases h0 : tag = 0
    · subst h0
      exact ⟨rfl, fun h => absurd h (by decide)⟩
    rw [if_neg h0]
    by_cases h1 : tag = 1
    · rw [if_pos h1, if_pos h1]
      generalize (textAt (tag :: body) 5).filter _ = kept
      cases kept with
      | none => exact ⟨rfl, fun _ _ => rfl⟩
      | some text => exact ⟨rfl, fun _ h => by cases h⟩
    rw [if_neg h1, if_neg h1]
    by_cases h2 : tag = 2
    · rw [if_pos h2, if_pos h2]
      generalize (textAt (tag :: body) 1).filter _ = kept
      cases kept with
      | none => exact ⟨rfl, fun _ _ => rfl⟩
      | some text => exact ⟨rfl, fun _ h => by cases h⟩
    rw [if_neg h2, if_neg h2]
    -- the other tags build no text from the body
    refine ⟨?_, fun h => absurd h (by simp [h1, h2])⟩
    repeat' split
    all_goals rfl

/-- The test of `read_res` is the right one exactly when the end of the text does not wrap. -/
theorem UiText.fits_iff {text : UiText} {len : Nat} (hoff : text.offset ≤ len)
    (hlen : len ≤ kUiMaxMsg) (hslen : text.slen < 2 ^ 32) :
    text.Fits ↔ ((text.offset + text.slen) % 2 ^ 32 ≤ len ↔ text.Inside len) := by
  have hmax : kUiMaxMsg = 4096 := rfl
  unfold UiText.Fits UiText.Inside
  constructor
  · intro h
    rw [Nat.mod_eq_of_lt h]
  · intro h
    by_contra hwrap
    have hmod : (text.offset + text.slen) % 2 ^ 32 = text.offset + text.slen - 2 ^ 32 := by
      rw [Nat.mod_eq_sub_mod (by omega), Nat.mod_eq_of_lt (by omega)]
    have hin := h.mp (by omega)
    omega

/-! ## 3. The decoder

Both directions: while the end does not wrap nothing is taken from behind the body, and when it
wraps something is.
-/

/-- Every text is taken from the body, and a body whose text would not be is a bad response. -/
def UiReply.StaysInside (reply : UiReply) (data : Bytes) : Prop :=
  (∀ text, reply.text? = some text → text.Inside data.length) ∧
    ((data.head? = some 1 ∨ data.head? = some 2) →
      (∀ text, announced data = some text → ¬text.Inside data.length) → reply = .bad)

/-- **`read_res` stays inside the body exactly when the end of the announced text does not
wrap.** -/
theorem read_res_inside_iff {reads rest rest' : List (Option Bytes)} {hdr data : Bytes}
    (hhdr : uiReadFull reads 4 = some (hdr, rest)) (hlen : ofLe hdr ≤ kUiMaxMsg)
    (hbody : uiReadFull rest (ofLe hdr) = some (data, rest')) :
    (readRes reads).StaysInside data ↔ ∀ text, announced data = some text → text.Fits := by
  have hdata := uiReadFull_length _ _ hbody
  rw [readRes_eq hhdr hlen hbody]
  rw [← hdata] at hlen ⊢
  obtain ⟨htext, hbad⟩ := uiDecode_text data
  constructor
  · intro h text hann
    obtain ⟨hoff, hslen⟩ := announced_bounds hann
    rw [UiText.fits_iff hoff hlen hslen]
    rw [hann, Option.filter_some] at htext
    constructor
    · intro hend
      rw [if_pos (decide_eq_true hend)] at htext
      exact h.1 text htext
    · intro hin
      exact (Nat.mod_le _ _).trans hin
  · intro hfits
    have hiff : ∀ text, announced data = some text →
        ((text.offset + text.slen) % 2 ^ 32 ≤ data.length ↔ text.Inside data.length) := by
      intro text hann
      obtain ⟨hoff, hslen⟩ := announced_bounds hann
      exact (UiText.fits_iff hoff hlen hslen).mp (hfits text hann)
    refine ⟨fun text h => ?_, fun htag hout => hbad htag ?_⟩
    · rw [htext] at h
      obtain ⟨hann, hend⟩ := Option.filter_eq_some_iff.mp h
      exact (hiff text hann).mp (of_decide_eq_true hend)
    · rw [htext, Option.filter_eq_none_iff]
      intro text hann hend
      exact hout text hann ((hiff text hann).mp (of_decide_eq_true hend))

/-- An error with a text of three bytes, in one frame. -/
theorem read_res_inside_err :
    (readRes [some [12, 0, 0, 0], some [1, 0, 0, 0, 0, 3, 0, 0, 0, 97, 98, 99]]).StaysInside
      [1, 0, 0, 0, 0, 3, 0, 0, 0, 97, 98, 99] := by
  have hhdr : uiReadFull [some [12, 0, 0, 0], some [1, 0, 0, 0, 0, 3, 0, 0, 0, 97, 98, 99]] 4 =
      some ([12, 0, 0, 0], [some [1, 0, 0, 0, 0, 3, 0, 0, 0, 97, 98, 99]]) := rfl
  have hbody : uiReadFull [some [1, 0, 0, 0, 0, 3, 0, 0, 0, 97, 98, 99]] (ofLe [12, 0, 0, 0]) =
      some ([1, 0, 0, 0, 0, 3, 0, 0, 0, 97, 98, 99], []) := rfl
  refine (read_res_inside_iff hhdr (by decide) hbody).mpr fun text h => ?_
  cases h
  decide

/-- **A body of nine bytes that announces a text of `2 ^ 32 - 1` passes the test**: `9 + slen`
is 8. -/
theorem read_res_leaves_body :
    (readRes [some [9, 0, 0, 0], some [1, 0, 0, 0, 0, 255, 255, 255, 255]]).text? =
      some ⟨9, 2 ^ 32 - 1⟩ ∧
    ¬(readRes [some [9, 0, 0, 0], some [1, 0, 0, 0, 0, 255, 255, 255, 255]]).StaysInside
      [1, 0, 0, 0, 0, 255, 255, 255, 255] := by
  have htext : (readRes [some [9, 0, 0, 0], some [1, 0, 0, 0, 0, 255, 255, 255, 255]]).text? =
      some ⟨9, 2 ^ 32 - 1⟩ := by decide
  refine ⟨htext, fun h => ?_⟩
  exact absurd (h.1 _ htext) (by decide)

end ApexDB
