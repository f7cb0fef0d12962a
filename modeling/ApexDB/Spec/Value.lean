import ApexDB.Protocol

/-!
# `Spec/Value.lean` — what a response says

The tagged values as a tree, and the bytes they stand for. The writers of `src/protocol.cpp`
append exactly these bytes (`outStr_eq` and its neighbours), so everything after this file
speaks of values.

**A value is more than its bytes can say.** A length is written into four bytes, so a string of
`2 ^ 32` bytes and an empty one begin alike. `Exact` is the condition that no size is cut, and
every value that fits into a frame has it (`exact_of_length`); the decoders are compared with
values under that condition or for frames, where it holds.

`depth` and `nesting` count the same arrays differently, because the client's limit is one on
recursion and an array without elements does not recurse.
-/

set_option autoImplicit false

namespace ApexDB

open Lib

inductive Value where
  | nil
  | err (code : Nat) (msg : Bytes)
  | str (s : Bytes)
  | int (n : Int)
  | dbl (bits : Nat)
  | arr (vs : List Value)

namespace Value

mutual

/-- The bytes of a value. -/
def encode : Value → Bytes
  | nil => [Tag.nil.byte]
  | err code msg => Tag.err.byte :: (le 4 code ++ (le 4 msg.length ++ msg))
  | str s => Tag.str.byte :: (le 4 s.length ++ s)
  | int n => Tag.int.byte :: le 8 (n % 2 ^ 64).toNat
  | dbl bits => Tag.dbl.byte :: le 8 bits
  | arr vs => Tag.arr.byte :: (le 4 vs.length ++ encodeAll vs)

def encodeAll : List Value → Bytes
  | [] => []
  | v :: vs => v.encode ++ encodeAll vs

end

theorem encodeAll_append (vs ws : List Value) :
    encodeAll (vs ++ ws) = encodeAll vs ++ encodeAll ws := by
  induction vs with
  | nil => rfl
  | cons v vs ih => simp [encodeAll, ih]

theorem encode_ne_nil (v : Value) : v.encode ≠ [] := by
  cases v <;> simp [encode]

theorem length_le_encodeAll : ∀ vs : List Value, vs.length ≤ (encodeAll vs).length := by
  intro vs
  induction vs with
  | nil => simp
  | cons v vs ih =>
    have hv : 0 < v.encode.length := List.length_pos_iff.mpr v.encode_ne_nil
    rw [encodeAll, List.length_append, List.length_cons]
    omega

mutual

/-- How deep arrays are nested. -/
def depth : Value → Nat
  | arr vs => depthAll vs + 1
  | _ => 0

def depthAll : List Value → Nat
  | [] => 0
  | v :: vs => max v.depth (depthAll vs)

end

mutual

/-- How many arrays an element lies in, at most. Unlike in `depth`, an array without elements
counts as any other leaf. -/
def nesting : Value → Nat
  | arr vs => nestingAll vs
  | _ => 0

def nestingAll : List Value → Nat
  | [] => 0
  | v :: vs => max (v.nesting + 1) (nestingAll vs)

end

mutual

theorem nesting_le_depth : ∀ v : Value, v.nesting ≤ v.depth
  | nil | err _ _ | str _ | int _ | dbl _ => Nat.zero_le _
  | arr vs => nestingAll_le_depthAll vs

theorem nestingAll_le_depthAll : ∀ vs : List Value, nestingAll vs ≤ depthAll vs + 1
  | [] => Nat.zero_le _
  | v :: vs => by
    have hv := nesting_le_depth v
    have hvs := nestingAll_le_depthAll vs
    rw [nestingAll, depthAll]
    omega

end

mutual

/-- Every size and count fits the four bytes it is written in. -/
def Exact : Value → Prop
  | err _ msg => msg.length < 2 ^ 32
  | str s => s.length < 2 ^ 32
  | arr vs => vs.length < 2 ^ 32 ∧ ExactAll vs
  | _ => True

def ExactAll : List Value → Prop
  | [] => True
  | v :: vs => v.Exact ∧ ExactAll vs

end

mutual

/-- What is short enough as a whole is exact: every size in it is the length of a part of it. -/
theorem exact_of_length : ∀ v : Value, v.encode.length < 2 ^ 32 → v.Exact
  | nil, _ => trivial
  | int _, _ => trivial
  | dbl _, _ => trivial
  | err code msg, h => by
    simp only [encode, List.length_cons, List.length_append, length_le] at h
    rw [Exact]
    omega
  | str s, h => by
    simp only [encode, List.length_cons, List.length_append, length_le] at h
    rw [Exact]
    omega
  | arr vs, h => by
    simp only [encode, List.length_cons, List.length_append, length_le] at h
    have := length_le_encodeAll vs
    exact ⟨by omega, exactAll_of_length vs (by omega)⟩

theorem exactAll_of_length : ∀ vs : List Value, (encodeAll vs).length < 2 ^ 32 → ExactAll vs
  | [], _ => trivial
  | v :: vs, h => by
    rw [encodeAll, List.length_append] at h
    exact ⟨exact_of_length v (by omega), exactAll_of_length vs (by omega)⟩

end

def ofErr (code : ErrCode) (msg : String) : Value := err code.code (bytes msg)

def IsErr : Value → Prop
  | err _ _ => True
  | _ => False

/-- Errors are known by their first byte, which is all that the client's exit code looks at. -/
theorem head?_encode_iff (v : Value) : v.encode.head? = some Tag.err.byte ↔ v.IsErr := by
  cases v <;> simp [encode, IsErr, Tag.byte]

end Value

theorem length_encode_str (k : Bytes) : (Value.str k).encode.length = 5 + k.length := by
  rw [Value.encode, List.length_cons, List.length_append, length_le]
  omega

variable (out : Buffer)

theorem outNil_eq : outNil out = out ++ Value.nil.encode := by
  simp [outNil, Value.encode]

theorem outStr_eq (s : Bytes) : outStr out s = out ++ (Value.str s).encode := by
  simp [outStr, Value.encode]

theorem outInt_eq (n : Int) : outInt out n = out ++ (Value.int n).encode := by
  simp [outInt, Value.encode]

theorem outDbl_eq (d : Dbl) : outDbl out d = out ++ (Value.dbl d.bits).encode := by
  simp [outDbl, Value.encode]

theorem outErr_eq (code : ErrCode) (msg : String) :
    outErr out code (bytes msg) = out ++ (Value.ofErr code msg).encode := by
  simp [outErr, Value.ofErr, Value.encode]

/-- An array, written as its header and then its elements. -/
theorem outArr_eq (vs : List Value) :
    outArr out vs.length ++ Value.encodeAll vs = out ++ (Value.arr vs).encode := by
  simp [outArr, Value.encode]

end ApexDB
