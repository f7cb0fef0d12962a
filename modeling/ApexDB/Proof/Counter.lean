import Mathlib.Data.List.TakeWhile
import ApexDB.Proof.Ttl

/-!
# A counter counts

`incr` writes its result as text and reads it again the next time, so a counter rests on the
round trip of `std::to_string` and `std::from_chars` over all of `int64_t`
(`str2int_toDecimal`). A run may do anything else in between, as long as it **spares** the key
(`Command.Spares`): what may be sent to the key itself depends on whether it is there and has a
deadline, and both are known from the requests sent before.

A counter that has reached `2 ^ 63 - 1` stays there: the source tests for it before it adds, and
answers with an error.
-/

set_option autoImplicit false

namespace ApexDB

open Lib

variable {Z : Type}

/-! ## 1. Decimal text

The text of a number has a sign or none, and then its digits without leading zeros. What is read
may have leading zeros, so the round trip is in one direction only.
-/

def digitBytes (n : Nat) : Bytes := (Nat.toDigits 10 n).map fun c => UInt8.ofNat c.toNat

theorem toDecimal_eq (n : Int) :
    toDecimal n = if n < 0 then 45 :: digitBytes n.natAbs else digitBytes n.natAbs := rfl

theorem digit_range {c : Char} (h : c.isDigit = true) : 48 ≤ c.toNat ∧ c.toNat ≤ 57 := by
  rw [Char.isDigit, Bool.and_eq_true, decide_eq_true_iff, decide_eq_true_iff] at h
  exact h

theorem toNat_digit {c : Char} (h : c.isDigit = true) : (UInt8.ofNat c.toNat).toNat = c.toNat := by
  have hc := digit_range h
  rw [UInt8.toNat_ofNat']
  omega

theorem isDigit_digitBytes {n : Nat} {b : UInt8} (h : b ∈ digitBytes n) : isDigit b = true := by
  obtain ⟨c, hc, rfl⟩ := List.mem_map.mp h
  have hdigit := Nat.isDigit_of_mem_toDigits (by decide) (by decide) hc
  have hrange := digit_range hdigit
  rw [isDigit, toNat_digit hdigit, Bool.and_eq_true, decide_eq_true_iff, decide_eq_true_iff]
  exact hrange

theorem digitBytes_ne_nil (n : Nat) : digitBytes n ≠ [] := by
  rw [digitBytes, Ne, List.map_eq_nil_iff]
  exact Nat.toDigits_ne_nil

theorem digitsVal_chars : ∀ (l : List Char) (init : Nat), (∀ c ∈ l, c.isDigit = true) →
    (l.map fun c => UInt8.ofNat c.toNat).foldl (fun n d => n * 10 + (d.toNat - 48)) init =
      Nat.ofDigitChars 10 l init := by
  intro l
  induction l with
  | nil =>
    intro init _
    rfl
  | cons c l ih =>
    intro init h
    rw [List.forall_mem_cons] at h
    rw [List.map_cons, List.foldl_cons, ih _ h.2, Nat.ofDigitChars_cons, toNat_digit h.1,
      Nat.mul_comm init 10]
    rfl

theorem digitsVal_digitBytes (n : Nat) : digitsVal (digitBytes n) = n := by
  rw [digitsVal, digitBytes, digitsVal_chars _ _ fun c hc =>
    Nat.isDigit_of_mem_toDigits (by decide) (by decide) hc]
  exact Nat.ofDigitChars_ten_toDigits

theorem takeWhile_digitBytes (n : Nat) : (digitBytes n).takeWhile isDigit = digitBytes n :=
  List.takeWhile_eq_self_iff.mpr fun _ h => isDigit_digitBytes h

/-- **What `std::to_string` writes, `std::from_chars` reads**, over all of `int64_t`. -/
theorem str2int_toDecimal {n : Int} (h : -2 ^ 63 ≤ n ∧ n < 2 ^ 63) :
    str2int (toDecimal n) = some n := by
  have hne := digitBytes_ne_nil n.natAbs
  have hempty : (digitBytes n.natAbs).isEmpty = false := List.isEmpty_eq_false_iff.mpr hne
  rw [toDecimal_eq]
  by_cases hneg : n < 0
  · have hread : fromChars (45 :: digitBytes n.natAbs) =
        some (n, (digitBytes n.natAbs).length + 1) := by
      unfold fromChars
      simp only [List.head?_cons, if_true, List.tail_cons, takeWhile_digitBytes,
        digitsVal_digitBytes, hempty]
      rw [if_neg (by decide), if_pos (by omega)]
      congr 2
      omega
    rw [if_pos hneg, str2int, hread]
    simp
  · have hhead : (digitBytes n.natAbs).head? ≠ some 45 := by
      intro hmem
      exact absurd (isDigit_digitBytes (List.mem_of_head? hmem)) (by decide)
    have hread : fromChars (digitBytes n.natAbs) = some (n, (digitBytes n.natAbs).length) := by
      unfold fromChars
      simp only [hhead, if_false, takeWhile_digitBytes, digitsVal_digitBytes, hempty]
      rw [if_neg (by decide), if_pos (by omega)]
      congr 2
      omega
    rw [if_neg hneg, str2int, hread, hempty]
    simp

/-! ## 2. Commands that spare a key

`get`, `ttl`, `exists` and the like spare every key, and so does whatever is sent to another
one. To the counter itself `del` and `pexpire` may be sent while it is not there, `persist` as
long as it has no deadline, and `zadd` once it is there, when it is refused.
-/

/-- The deadline of a key, of which the key may be absent and the deadline unset. -/
def RefStore.deadlineOf (m : RefStore Z) (key : Bytes) : Option (Option Nat) :=
  (m.lookup key).map RefEntry.deadline

/-- The key has not expired at this time. -/
def Before (c : Option (Option Nat)) (now : Nat) : Prop := ∀ d, c = some (some d) → now < d

/-- The command does not write, delete or expire a key that is absent or a string, where `c`
says whether the key is there and which deadline it has. A command that the key makes fail is
among these. -/
def Command.Spares (strtod : Bytes → StrtodResult) (key : Bytes) (c : Option (Option Nat)) :
    Command → Prop
  | .set k _ => k ≠ key
  | .incr k => k ≠ key
  | .del k => k = key → c = none
  | .persist k => k = key → c.join = none
  | .pexpire k arg => k = key → c = none ∨ str2int arg = none
  | .zadd k arg _ => k = key → c ≠ none ∨ str2dbl strtod arg = none
  | _ => True

section Spares

variable (R : Reading Z) (strtod : Bytes → StrtodResult) (clk : Nat) {m m' : RefStore Z}
  {cmd : Command} {key : Bytes}

/-- **A command that spares a key leaves it as it is**, value and deadline, or absent, if the
key does not hold a sorted set. -/
theorem refCommand_spares (hstr : ∀ z d, m.lookup key ≠ some ⟨.zset z, d⟩)
    (hcmd : cmd.Spares strtod key (m.deadlineOf key)) :
    (refCommand R strtod clk m cmd).1.lookup key = m.lookup key := by
  by_cases hkey : cmd.key? = some key
  · unfold RefStore.deadlineOf at hcmd
    cases cmd with
    | ping | keys | unknown => cases hkey
    | set | incr => exact absurd (Option.some.inj hkey) hcmd
    | del =>
      obtain rfl := Option.some.inj hkey
      rw [refCommand, Finmap.lookup_erase]
      exact (Option.map_eq_none_iff.mp (hcmd rfl)).symm
    | persist =>
      obtain rfl := Option.some.inj hkey
      have hnone := hcmd rfl
      simp only [refCommand]
      split
      · rename_i v d hl
        rw [hl] at hnone
        cases hnone
      · rfl
    | pexpire k arg =>
      obtain rfl := Option.some.inj hkey
      simp only [refCommand, refExpire]
      rcases hcmd rfl with habs | harg
      · rw [Option.map_eq_none_iff.mp habs]
        split <;> exact Option.map_eq_none_iff.mp habs
      · rw [harg]
    | zadd k arg name =>
      obtain rfl := Option.some.inj hkey
      simp only [refCommand, refZadd]
      rcases hcmd rfl with hthere | harg
      · cases hl : m.lookup k with
        | none =>
          rw [hl] at hthere
          exact absurd rfl hthere
        | some e =>
          obtain ⟨v, d⟩ := e
          cases v with
          | zset z => exact absurd hl (hstr z d)
          | str s => split <;> exact hl
      · rw [harg]
    | zrem =>
      obtain rfl := Option.some.inj hkey
      simp only [refCommand, refZrem]
      split
      · rfl
      · rfl
      · rename_i z d hl
        exact absurd hl (hstr z d)
    | _ => rfl
  · exact refCommand_other R strtod clk hkey

theorem Faded.lookup_before {now : Nat} (hf : Faded now m m') (h : Before (m.deadlineOf key) now) :
    m'.lookup key = m.lookup key := by
  rcases hf key with heq | ⟨-, re, hre, hdue⟩
  · exact heq
  · -- it would be due
    obtain ⟨d, hd, hle⟩ := RefEntry.due_iff.mp hdue
    have hlt := h d (by rw [RefStore.deadlineOf, hre, Option.map_some, hd])
    exact absurd hle (Nat.not_le.mpr hlt)

end Spares

/-! ## 3. Runs

Two step lemmas, for an `incr` of the counter and for an event that spares it, and one induction
that has both.
-/

def StoreEvent.Spares (strtod : Bytes → StrtodResult) (key : Bytes) (c : Option (Option Nat)) :
    StoreEvent → Prop
  | .execute now _ cmd => Before c now ∧ (dispatch cmd).Spares strtod key c
  | .processTimers now _ => Before c now
  | .work => True

def StoreEvent.isIncr (key : Bytes) : StoreEvent → Bool
  | .execute _ _ cmd => cmd == [bytes "incr", key]
  | _ => false

/-- Requests `incr key`, interleaved with events that spare the key. The first of the requests
creates a key that is absent, without a deadline. -/
def Interleaved (strtod : Bytes → StrtodResult) (key : Bytes) :
    Option (Option Nat) → List StoreEvent → Prop
  | _, [] => True
  | c, ev :: evs =>
    if ev.isIncr key then Before c ev.now ∧ Interleaved strtod key (some c.join) evs
    else ev.Spares strtod key c ∧ Interleaved strtod key c evs

def incrReplies (key : Bytes) : List StoreEvent → List Bytes → List Bytes
  | ev :: evs, o :: outs =>
    if ev.isIncr key then o :: incrReplies key evs outs else incrReplies key evs outs
  | _, _ => []

/-- The key is absent and `v` is 0, or holds a string that is read as `v`. -/
def Counts (m : RefStore Z) (key : Bytes) (v : Int) : Prop :=
  m.lookup key = none ∧ v = 0 ∨ ∃ s d, m.lookup key = some ⟨.str s, d⟩ ∧ str2int s = some v

theorem Counts.not_zset {m : RefStore Z} {key : Bytes} {v : Int} (h : Counts m key v) :
    ∀ z d, m.lookup key ≠ some ⟨.zset z, d⟩ := by
  intro z d hl
  rcases h with ⟨hnone, -⟩ | ⟨s, d', hs, -⟩
  · rw [hnone] at hl
    cases hl
  · rw [hs] at hl
    cases hl

theorem Counts.congr {m m' : RefStore Z} {key : Bytes} {v : Int} (h : Counts m key v)
    (heq : m'.lookup key = m.lookup key) : Counts m' key v := by
  unfold Counts
  rw [heq]
  exact h

variable (strtod : Bytes → StrtodResult) {st : Store} {m : RefStore Members} {key : Bytes} {v : Int}

/-- **One `incr`** answers with the next number and stores its text. -/
theorem incr_step (h : st.Models ScoresOf m) (hc : Counts m key v) (hlt : v + 1 < 2 ^ 63) {now : Nat}
    (hnow : Before (m.deadlineOf key) now) (clk : Nat) :
    ∃ st' m', storeStep strtod st (.execute now clk [bytes "incr", key]) =
        some (st', (Value.int (v + 1)).encode) ∧ st'.Models ScoresOf m' ∧
      m'.lookup key = some ⟨.str (toDecimal (v + 1)), (m.deadlineOf key).join⟩ := by
  obtain ⟨st', r, hrun, hr, h'⟩ :=
    execute_spec mapReading_sound strtod h now clk [bytes "incr", key] []
  rw [show dispatch [bytes "incr", key] = .incr key from rfl] at hr h'
  have hl := (faded_purge now m).lookup_before hnow
  unfold RefStore.deadlineOf
  simp only [refCommand, refIncr, hl] at hr h'
  rcases hc with ⟨hnone, rfl⟩ | ⟨s, d, hs, hv⟩
  · rw [hnone] at hr h' ⊢
    obtain rfl : r = .int 1 := hr
    exact ⟨st', _, hrun, h', Finmap.lookup_insert _⟩
  · rw [hs] at hr h' ⊢
    simp only [hv] at hr h'
    rw [if_neg (by omega)] at hr h'
    obtain rfl : r = .int (v + 1) := hr
    exact ⟨st', _, hrun, h', Finmap.lookup_insert _⟩

/-- **An event that spares the key** leaves it as it is. -/
theorem spares_step (h : st.Models ScoresOf m) (hc : Counts m key v) {ev : StoreEvent}
    (hev : ev.Spares strtod key (m.deadlineOf key)) :
    ∃ st' o m', storeStep strtod st ev = some (st', o) ∧ st'.Models ScoresOf m' ∧
      m'.lookup key = m.lookup key := by
  cases ev with
  | execute now clk cmd =>
    obtain ⟨st', r, hrun, -, h'⟩ := execute_spec mapReading_sound strtod h now clk cmd []
    have hl := (faded_purge now m).lookup_before hev.1
    refine ⟨st', _, _, hrun, h', ?_⟩
    have hsame : (m.purge now).deadlineOf key = m.deadlineOf key := congrArg _ hl
    exact (refCommand_spares _ strtod clk (hc.congr hl).not_zset (hsame ▸ hev.2)).trans hl
  | processTimers now clk =>
    obtain ⟨st', hrun, m', h', hf, -⟩ := processTimers_spec h now
    exact ⟨st', [], m', by simp [storeStep, hrun], h', hf.lookup_before hev⟩
  | work =>
    obtain ⟨st', hrun, h'⟩ := work_spec h
    exact ⟨st', [], m, by simp [storeStep, hrun], h', rfl⟩

def countedReplies (v : Int) (k : Nat) : List Bytes :=
  (List.range k).map fun i => (Value.int (v + (i + 1 : Nat))).encode

theorem countedReplies_succ (v : Int) (k : Nat) :
    countedReplies v (k + 1) = (Value.int (v + 1)).encode :: countedReplies (v + 1) k := by
  rw [countedReplies, countedReplies, List.range_succ_eq_map, List.map_cons, List.map_map]
  congr 1
  refine List.map_congr_left fun i _ => ?_
  have hsum : v + ((i + 1 + 1 : Nat) : Int) = v + 1 + (i + 1 : Nat) := by omega
  rw [Function.comp_apply, ← hsum]

/-- What a counter is after `k` requests from the value `v`. -/
def CountedTo (m m' : RefStore Members) (key : Bytes) (v : Int) (k : Nat) : Prop :=
  if k = 0 then m'.lookup key = m.lookup key
  else m'.lookup key = some ⟨.str (toDecimal (v + k)), (m.deadlineOf key).join⟩

/-- **The counter law along a run**, by induction on the events. -/
theorem counter_run : ∀ (evs : List StoreEvent) {st : Store} {m : RefStore Members} {v : Int},
    st.Models ScoresOf m → Counts m key v → Interleaved strtod key (m.deadlineOf key) evs →
    v + evs.countP (StoreEvent.isIncr key) < 2 ^ 63 →
    ∃ st' outs m', run (storeStep strtod) st evs = some (st', outs) ∧ st'.Models ScoresOf m' ∧
      incrReplies key evs outs = countedReplies v (evs.countP (StoreEvent.isIncr key)) ∧
      CountedTo m m' key v (evs.countP (StoreEvent.isIncr key)) := by
  intro evs
  induction evs with
  | nil =>
    intro st m v h _ _ _
    exact ⟨st, [], m, rfl, h, rfl, rfl⟩
  | cons ev evs ih =>
    intro st m v h hc hint hmax
    rw [Interleaved] at hint
    by_cases hincr : ev.isIncr key = true
    · rw [if_pos hincr] at hint
      rw [List.countP_cons_of_pos hincr] at hmax ⊢
      obtain ⟨now, clk, rfl⟩ : ∃ now clk, ev = .execute now clk [bytes "incr", key] := by
        cases ev with
        | execute now clk cmd => exact ⟨now, clk, by rw [beq_iff_eq.mp hincr]⟩
        | _ => cases hincr
      have hnow : Before (m.deadlineOf key) now := hint.1
      obtain ⟨st₁, m₁, hstep, h₁, hl⟩ := incr_step strtod h hc (by omega) hnow clk
      -- the text that was stored is read back
      have hrange : -2 ^ 63 ≤ v + 1 := by
        rcases hc with ⟨-, rfl⟩ | ⟨s, d, -, hv⟩
        · omega
        · have := str2int_range hv
          omega
      have hc₁ : Counts m₁ key (v + 1) :=
        .inr ⟨_, _, hl, str2int_toDecimal ⟨hrange, by omega⟩⟩
      have hd₁ : m₁.deadlineOf key = some (m.deadlineOf key).join := by
        rw [RefStore.deadlineOf, hl, Option.map_some]
      obtain ⟨st₂, outs, m₂, hrun, h₂, hreplies, hto⟩ := ih h₁ hc₁ (hd₁ ▸ hint.2) (by omega)
      refine ⟨st₂, (Value.int (v + 1)).encode :: outs, m₂, by simp [run, hstep, hrun], h₂, ?_, ?_⟩
      · rw [incrReplies, if_pos hincr, hreplies, countedReplies_succ]
      · unfold CountedTo at hto ⊢
        rw [if_neg (Nat.succ_ne_zero _)]
        split at hto
        · rename_i hzero
          rw [hto, hl, hzero]
          rfl
        · rw [hto, hd₁, Option.join_some]
          congr 4
          push_cast
          omega
    · rw [if_neg hincr] at hint
      rw [List.countP_cons_of_neg hincr] at hmax ⊢
      obtain ⟨st₁, o, m₁, hstep, h₁, hl⟩ := spares_step strtod h hc hint.1
      have hd₁ : m₁.deadlineOf key = m.deadlineOf key := congrArg _ hl
      obtain ⟨st₂, outs, m₂, hrun, h₂, hreplies, hto⟩ := ih h₁ (hc.congr hl) (hd₁ ▸ hint.2) hmax
      refine ⟨st₂, o :: outs, m₂, by simp [run, hstep, hrun], h₂, ?_, ?_⟩
      · rw [incrReplies, if_neg hincr, hreplies]
      · unfold CountedTo at hto ⊢
        rwa [hl, hd₁] at hto

/-! ## 4. The counter law

The law is about the values; the errors at the end of the range and on texts that are no numbers
are the other half of the same command.
-/

theorem get_reply (h : st.Models ScoresOf m) {s : Bytes} {d : Option Nat}
    (hl : m.lookup key = some ⟨.str s, d⟩) {now : Nat} (hnow : Before (some d) now) (clk : Nat) :
    ∃ st', storeStep strtod st (.execute now clk [bytes "get", key]) =
      some (st', (Value.str s).encode) := by
  obtain ⟨st', r, hrun, hr, -⟩ :=
    execute_spec mapReading_sound strtod h now clk [bytes "get", key] []
  have hpurge : (m.purge now).lookup key = m.lookup key :=
    (faded_purge now m).lookup_before (by rw [RefStore.deadlineOf, hl]; exact hnow)
  rw [show dispatch [bytes "get", key] = .get key from rfl] at hr
  simp only [refCommand, hpurge, hl] at hr
  obtain rfl : r = .str s := hr
  exact ⟨st', hrun⟩

/-- **`incr` fails on a string that is no number or the last one**, and changes nothing of the
key. -/
theorem incr_fails (h : st.Models ScoresOf m) {s : Bytes} {d : Option Nat}
    (hl : m.lookup key = some ⟨.str s, d⟩) (hs : str2int s = none ∨ str2int s = some (2 ^ 63 - 1))
    {now : Nat} (hnow : Before (some d) now) (clk : Nat) :
    ∃ st' m', storeStep strtod st (.execute now clk [bytes "incr", key]) =
        some (st', (Value.ofErr .badArg
          "value is not an integer or increment would overflow").encode) ∧
      st'.Models ScoresOf m' ∧ m'.lookup key = some ⟨.str s, d⟩ := by
  obtain ⟨st', r, hrun, hr, h'⟩ :=
    execute_spec mapReading_sound strtod h now clk [bytes "incr", key] []
  have hpurge : (m.purge now).lookup key = m.lookup key :=
    (faded_purge now m).lookup_before (by rw [RefStore.deadlineOf, hl]; exact hnow)
  rw [show dispatch [bytes "incr", key] = .incr key from rfl] at hr h'
  simp only [refCommand, refIncr, hpurge, hl] at hr h'
  have hsame : (m.purge now).lookup key = some ⟨.str s, d⟩ := hpurge.trans hl
  rcases hs with hs | hs
  · rw [hs] at hr h'
    obtain rfl : r = _ := hr
    exact ⟨st', _, hrun, h', hsame⟩
  · simp only [hs, if_true] at hr h'
    obtain rfl : r = _ := hr
    exact ⟨st', _, hrun, h', hsame⟩

/-- **The counter law.** From any state that can be reached, `k` requests `incr key` that are
interleaved with events that spare the key are answered `v + 1` to `v + k`; then the key holds
the decimal text of `v + k`, which `get` answers, and has the deadline it had. Where there is no
next number the request is answered with an error and changes nothing of the key. -/
theorem incr_counter_law (strtod : Bytes → StrtodResult) (threads : Nat) (pre : List StoreEvent)
    (key : Bytes) :
    ∃ st outs m, run (storeStep strtod) { threads := threads } pre = some (st, outs) ∧
      st.Models ScoresOf m ∧ (∀ m₁, st.Models ScoresOf m₁ → m₁ = m) ∧
      (∀ (v : Int) (k : Nat) (evs : List StoreEvent), Counts m key v →
        Interleaved strtod key (m.deadlineOf key) evs →
        evs.countP (StoreEvent.isIncr key) = k → v + k ≤ 2 ^ 63 - 1 →
        ∃ st' outs' m', run (storeStep strtod) st evs = some (st', outs') ∧
          st'.Models ScoresOf m' ∧ (∀ m₁, st'.Models ScoresOf m₁ → m₁ = m') ∧
          incrReplies key evs outs' = countedReplies v k ∧
          (m'.deadlineOf key).join = (m.deadlineOf key).join ∧
          (k = 0 → m'.lookup key = m.lookup key) ∧
          (0 < k → ∀ now clk, Before (m'.deadlineOf key) now →
            ∃ st'', storeStep strtod st' (.execute now clk [bytes "get", key]) =
              some (st'', (Value.str (toDecimal (v + k))).encode))) ∧
      ∀ s d, m.lookup key = some ⟨.str s, d⟩ →
        str2int s = none ∨ str2int s = some (2 ^ 63 - 1) →
        ∀ now clk, Before (m.deadlineOf key) now →
          ∃ st' m', storeStep strtod st (.execute now clk [bytes "incr", key]) =
              some (st', (Value.ofErr .badArg
                "value is not an integer or increment would overflow").encode) ∧
            st'.Models ScoresOf m' ∧ m'.lookup key = some ⟨.str s, d⟩ := by
  obtain ⟨st, outs, m, hrun, h⟩ := store_run_models mapReading_sound strtod pre
    (Store.models_empty threads)
  refine ⟨st, outs, m, hrun, h, fun m₁ h₁ => h.unique h₁, ?_, ?_⟩
  · intro v k evs hc hint hk hmax
    obtain ⟨st', outs', m', hrun', h', hreplies, hto⟩ :=
      counter_run strtod evs h hc hint (by rw [hk]; omega)
    rw [hk] at hreplies hto
    refine ⟨st', outs', m', hrun', h', fun m₁ h₁ => h'.unique h₁, hreplies, ?_, ?_, ?_⟩
    · unfold CountedTo at hto
      rw [RefStore.deadlineOf]
      split at hto
      · rw [hto]
        rfl
      · rw [hto]
        rfl
    · intro hzero
      rwa [CountedTo, if_pos hzero] at hto
    · intro hpos now clk hnow
      rw [CountedTo, if_neg (Nat.ne_of_gt hpos)] at hto
      rw [RefStore.deadlineOf, hto] at hnow
      exact get_reply strtod h' hto hnow clk
  · intro s d hl hs now clk hnow
    rw [RefStore.deadlineOf, hl] at hnow
    exact incr_fails strtod h hl hs hnow clk

end ApexDB
