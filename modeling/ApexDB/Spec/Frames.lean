import ApexDB.Lib.Stream
import ApexDB.Spec.Value

/-!
# `Spec/Frames.lean` — requests and responses on the wire

A stream of requests is cut by `requestCutter`: a length and a body that parses is one request,
a length over the limit or a body that does not parse is wrong, and anything shorter waits. A
response is `frameOf` what the handler wrote.

With these two the traffic of a connection is two streams: what a client has sent says which
requests there are, however it was delivered, and the answers to them, framed one after the
other, are what the client is to be sent.
-/

set_option autoImplicit false

namespace ApexDB

open Lib

def tooBig : Value := .ofErr .tooBig "response is too big."

/-- The body that is sent for what the handler wrote: that itself, or an error in place of one
that is too big. -/
def bodyOf (b : Bytes) : Bytes := if kMaxMsg < b.length then tooBig.encode else b

/-- The response on the wire. -/
def frameOf (b : Bytes) : Bytes := le 4 (bodyOf b).length ++ bodyOf b

theorem length_bodyOf (b : Bytes) : (bodyOf b).length ≤ kMaxMsg := by
  unfold bodyOf
  split
  · decide
  · omega

/-- The head of a stream of requests: what `try_one_request` does with `incoming`, without its
effects. -/
def cutRequest (x : Bytes) : Cut UInt8 (List Bytes) :=
  if x.length < 4 then .more
  else if kMaxMsg < ofLe (x.take 4) then .bad
  else if x.length < 4 + ofLe (x.take 4) then .more
  else
    match parseReq ((x.drop 4).take (ofLe (x.take 4))) with
    | none => .bad
    | some cmd => .item cmd (x.drop (4 + ofLe (x.take 4)))

theorem cutRequest_append {x : Bytes} (h : ∀ r, cutRequest x = r → r ≠ .more) (y : Bytes) :
    cutRequest (x ++ y) = match cutRequest x with
      | .item cmd rest => .item cmd (rest ++ y)
      | r => r := by
  unfold cutRequest at h ⊢
  by_cases h₁ : x.length < 4
  · rw [if_pos h₁] at h
    exact absurd rfl (h _ rfl)
  have htake : (x ++ y).take 4 = x.take 4 := List.take_append_of_le_length (by omega)
  rw [if_neg h₁] at h ⊢
  rw [if_neg (by rw [List.length_append]; omega), htake]
  by_cases h₂ : kMaxMsg < ofLe (x.take 4)
  · rw [if_pos h₂, if_pos h₂]
  rw [if_neg h₂] at h ⊢
  rw [if_neg h₂]
  by_cases h₃ : x.length < 4 + ofLe (x.take 4)
  · rw [if_pos h₃] at h
    exact absurd rfl (h _ rfl)
  have hbody : ((x ++ y).drop 4).take (ofLe (x.take 4)) = (x.drop 4).take (ofLe (x.take 4)) := by
    rw [List.drop_append_of_le_length (by omega)]
    exact List.take_append_of_le_length (by rw [List.length_drop]; omega)
  rw [if_neg h₃, if_neg (by rw [List.length_append]; omega), hbody,
    List.drop_append_of_le_length (by omega)]
  cases parseReq ((x.drop 4).take (ofLe (x.take 4))) <;> rfl

/-- **A stream of requests.** -/
def requestCutter : Cutter UInt8 (List Bytes) where
  cut := cutRequest
  shrinks := by
    intro x cmd rest h
    unfold cutRequest at h
    split at h
    · cases h
    · split at h
      · cases h
      · split at h
        · cases h
        · split at h
          · cases h
          · cases h
            rw [List.length_drop]
            omega
  item_append := by
    intro x cmd rest h y
    rw [cutRequest_append (fun r hr hmore => by rw [h, hmore] at hr; cases hr), h]
  bad_append := by
    intro x h y
    rw [cutRequest_append (fun r hr hmore => by rw [h, hmore] at hr; cases hr), h]

end ApexDB
