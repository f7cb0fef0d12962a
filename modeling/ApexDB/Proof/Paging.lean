import ApexDB.Proof.Isolation
import ApexDB.Proof.Zquery
import ApexDB.Proof.Counter

/-!
# Paging through a sorted set

`zquery` takes an offset in members and a limit in elements of the reply, two for each member. A
client that asks for `k` members at a time asks for the offsets `0, k, 2k, …` with the limit
`2k`. **The pages are the members from the place it seeks on, each once and in their order**, as
long as nothing is written to the set: a page leaves the set as it is, what happens on other
keys does not matter (`refCommand_other`), and neither do the timers and the workers.

The number of members is limited because an offset is resolved by counters of 32 bits; the limit
is one of the source and not of the statement.
-/

set_option autoImplicit false

namespace ApexDB

open Lib BinaryTree

/-! ## 1. The pages of a list

About lists only: cutting off a front and taking `k`, for one multiple of `k` after another,
gives the list back.
-/

/-- Page `i` of the members from the place on. -/
def pageOf (L : List ZNode) (score : Dbl) (name : Bytes) (k i : Nat) : List ZNode :=
  sliceOf L score name (i * k : Nat) (2 * k : Nat)

theorem pageOf_eq (L : List ZNode) (score : Dbl) (name : Bytes) {k : Nat} (hk : 0 < k) (i : Nat) :
    pageOf L score name k i = ((L.drop (countBelow L score name)).drop (i * k)).take k := by
  have hhalf : (((2 * k : Nat) : Int) + 1) / 2 = k := by omega
  have hplace : ((countBelow L score name : Int) + (i * k : Nat)).toNat = countBelow L score name + i * k := by omega
  rw [pageOf, sliceOf, slicePairs, hhalf, hplace, List.drop_drop]
  generalize countBelow L score name = p
  generalize i * k = a
  split
  · rename_i hnone
    rw [List.take_zero, List.drop_of_length_le (by omega), List.take_nil]
  · rw [Int.toNat_natCast, ← List.length_drop, ← List.take_eq_take_min]

/-- **The pages together** are the first `n * k` members from the place on. -/
theorem flatMap_pageOf (L : List ZNode) (score : Dbl) (name : Bytes) {k : Nat} (hk : 0 < k) (n : Nat) :
    (List.range n).flatMap (pageOf L score name k) = (L.drop (countBelow L score name)).take (n * k) := by
  induction n with
  | zero => rw [List.range_zero, List.flatMap_nil, Nat.zero_mul, List.take_zero]
  | succ n ih =>
    rw [List.range_succ, List.flatMap_append, ih, List.flatMap_singleton, pageOf_eq L score name hk, Nat.succ_mul,
      List.take_add]

/-! ## 2. The requests

The requests on the key are fixed, and everything in between is free. What has to be excluded is
that the key expires in the middle of it.
-/

def pageCmd (key arg name : Bytes) (k i : Nat) : List Bytes :=
  [bytes "zquery", key, arg, name, toDecimal (i * k : Nat), toDecimal (2 * k : Nat)]

def StoreEvent.sends (cmd : List Bytes) : StoreEvent → Bool
  | .execute _ _ cmd' => cmd' == cmd
  | _ => false

/-- The requests on the key are those for the pages from `i` to `n`, in this order, and the key
does not expire. -/
def Paging (key arg name : Bytes) (k : Nat) (d : Option Nat) : Nat → List StoreEvent → Nat → Prop
  | i, [], n => i = n
  | i, ev :: evs, n => Before (some d) ev.now ∧
    if ev.on (· == key) then ev.sends (pageCmd key arg name k i) = true ∧ Paging key arg name k d (i + 1) evs n
    else Paging key arg name k d i evs n

theorem Paging.le {key arg name : Bytes} {k n : Nat} {d : Option Nat} : ∀ {evs : List StoreEvent} {i : Nat},
    Paging key arg name k d i evs n → i ≤ n := by
  intro evs
  induction evs with
  | nil =>
    intro i h
    exact Nat.le_of_eq h
  | cons ev evs ih =>
    intro i h
    obtain ⟨-, h⟩ := h
    split at h
    · exact Nat.le_of_succ_le (ih h.2)
    · exact ih h

section Run

variable (strtod : Bytes → StrtodResult) {st : Store} {m : RefStore ZTree} {key arg name : Bytes} {score : Dbl}
  {t : ZTree} {d : Option Nat}

/-- What happens elsewhere leaves the set as it is. -/
theorem paging_elsewhere (h : st.Models (· = ·) m) (hset : m.lookup key = some ⟨.zset t, d⟩) {ev : StoreEvent}
    (hnow : Before (some d) ev.now) (hoff : ev.on (· == key) = false) :
    ∃ st' o m', storeStep strtod st ev = some (st', o) ∧ st'.Models (· = ·) m' ∧
      m'.lookup key = some ⟨.zset t, d⟩ := by
  have hbefore : Before (m.deadlineOf key) ev.now := by
    rwa [RefStore.deadlineOf, hset]
  cases ev with
  | execute now clk cmd =>
    obtain ⟨st', v, hrun, -, h'⟩ := execute_spec treeReading_sound strtod h now clk cmd []
    have hkey : (dispatch cmd).key? ≠ some key := by
      intro heq
      rw [StoreEvent.on, heq, Option.any_some, beq_self_eq_true] at hoff
      cases hoff
    refine ⟨st', _, _, hrun, h', ?_⟩
    rw [refCommand_other treeReading strtod clk hkey, (faded_purge now m).lookup_before hbefore, hset]
  | processTimers now clk =>
    obtain ⟨st', hrun, m', h', hf, -⟩ := processTimers_spec h now
    exact ⟨st', [], m', by simp [storeStep, hrun], h', (hf.lookup_before hbefore).trans hset⟩
  | work =>
    obtain ⟨st', hrun, h'⟩ := work_spec h
    exact ⟨st', [], m, by simp [storeStep, hrun], h', hset⟩

/-- **A page**: the reply is the array of its members, and the set is as it was. -/
theorem paging_page (h : st.Models (· = ·) m) (hset : m.lookup key = some ⟨.zset t, d⟩) (hsize : t.numNodes < 2 ^ 32)
    (hscore : str2dbl strtod arg = some score) (name : Bytes) {k i now : Nat} (clk : Nat) (hk : 2 * k < 2 ^ 63)
    (hi : i * k < 2 ^ 63) (hnow : Before (some d) now) :
    ∃ st' m', storeStep strtod st (.execute now clk (pageCmd key arg name k i)) =
        some (st', (Value.arr (memberValues (pageOf t.inorder score name k i))).encode) ∧
      st'.Models (· = ·) m' ∧ m'.lookup key = some ⟨.zset t, d⟩ := by
  have hbefore : Before (m.deadlineOf key) now := by
    rwa [RefStore.deadlineOf, hset]
  have hthere : (m.purge now).lookup key = some ⟨.zset t, d⟩ := by
    rw [(faded_purge now m).lookup_before hbefore, hset]
  have hread : refZset treeReading (m.purge now) key = some t := by rw [refZset, hthere]
  obtain ⟨st', v, hrun, -, h'⟩ := execute_spec treeReading_sound strtod h now clk (pageCmd key arg name k i) []
  obtain ⟨st₁, hreply⟩ := execute_zquery_slice strtod h clk hread (h.ok hset) hsize hscore name
    (str2int_toDecimal (n := (i * k : Nat)) (by omega)) (str2int_toDecimal (n := (2 * k : Nat)) (by omega)) []
  rw [← pageCmd, hrun] at hreply
  have hv : v.encode = (Value.arr (memberValues (pageOf t.inorder score name k i))).encode :=
    congrArg Prod.snd (Option.some.inj hreply)
  refine ⟨st', _, ?_, h', hthere⟩
  rw [← hv]
  exact hrun

/-- **The pages of a run**, by induction on its events: one that asks for no page leaves the set
alone. -/
theorem paging_run (hsize : t.numNodes < 2 ^ 32) (hscore : str2dbl strtod arg = some score) {k n : Nat}
    (hk : 2 * k < 2 ^ 63) (hn : n * k < 2 ^ 63) : ∀ {evs : List StoreEvent} {st : Store} {m : RefStore ZTree} {i : Nat},
    st.Models (· = ·) m → m.lookup key = some ⟨.zset t, d⟩ → Paging key arg name k d i evs n →
    ∃ st' outs, run (storeStep strtod) st evs = some (st', outs) ∧
      answersOn (· == key) evs outs = (List.range' i (n - i)).map fun i =>
        (Value.arr (memberValues (pageOf t.inorder score name k i))).encode := by
  intro evs
  induction evs with
  | nil =>
    intro st m i h hset hpaging
    obtain rfl : i = n := hpaging
    exact ⟨st, [], rfl, by rw [Nat.sub_self]; rfl⟩
  | cons ev evs ih =>
    intro st m i h hset hpaging
    obtain ⟨hnow, hpaging⟩ := hpaging
    cases hon : ev.on (· == key) with
    | false =>
      rw [hon, if_neg Bool.false_ne_true] at hpaging
      obtain ⟨st₁, o, m₁, hstep, h₁, hset₁⟩ := paging_elsewhere strtod h hset hnow hon
      obtain ⟨st', outs, hrun, hpages⟩ := ih h₁ hset₁ hpaging
      refine ⟨st', o :: outs, by simp [run, hstep, hrun], ?_⟩
      rw [← hpages]
      simp only [answersOn, List.zip_cons_cons, List.filter_cons, hon, Bool.false_eq_true, if_false]
    | true =>
      rw [hon, if_pos rfl] at hpaging
      obtain ⟨hsends, hpaging⟩ := hpaging
      cases ev with
      | processTimers now clk => cases hsends
      | work => cases hsends
      | execute now clk cmd =>
        obtain rfl : cmd = pageCmd key arg name k i := eq_of_beq hsends
        -- a page that is asked for is one of the `n`, so its offset is a number that can be sent
        have hin : i + 1 ≤ n := hpaging.le
        have hoffset : i * k < 2 ^ 63 := Nat.lt_of_le_of_lt (Nat.mul_le_mul_right k (Nat.le_of_succ_le hin)) hn
        have hbefore : Before (some d) now := hnow
        obtain ⟨st₁, m₁, hstep, h₁, hset₁⟩ := paging_page strtod h hset hsize hscore name clk hk hoffset hbefore
        obtain ⟨st', outs, hrun, hpages⟩ := ih h₁ hset₁ hpaging
        refine ⟨st', (Value.arr (memberValues (pageOf t.inorder score name k i))).encode :: outs,
          by simp [run, hstep, hrun], ?_⟩
        rw [show n - i = n - (i + 1) + 1 by omega, List.range'_succ, List.map_cons, ← hpages]
        simp only [answersOn, List.zip_cons_cons, List.filter_cons, hon, if_true, List.map_cons]

end Run

/-- **Paging through a sorted set returns its members from the place on, each once and in
order.** For every reachable store and every sorted set in it with fewer than `2 ^ 32` members:
when the requests on its key are those for the pages `0` to `n` of `k` members each, among any
requests on other keys, passes of the timers and steps of workers, and the key does not expire,
then the replies are the pages, and together they are the first `n * k` of the members that are
not below the place. -/
theorem zquery_pages (strtod : Bytes → StrtodResult) (threads : Nat) (pre : List StoreEvent) :
    ∃ st outs m, run (storeStep strtod) { threads := threads } pre = some (st, outs) ∧ st.Models (· = ·) m ∧
      ∀ (key arg name : Bytes) (score : Dbl) (t : ZTree) (d : Option Nat) (k n : Nat) (evs : List StoreEvent),
        m.lookup key = some ⟨.zset t, d⟩ → t.numNodes < 2 ^ 32 → str2dbl strtod arg = some score →
        0 < k → 2 * k < 2 ^ 63 → n * k < 2 ^ 63 → Paging key arg name k d 0 evs n →
        ∃ st' outs', run (storeStep strtod) st evs = some (st', outs') ∧
          answersOn (· == key) evs outs' = (List.range n).map (fun i =>
            (Value.arr (memberValues (pageOf t.inorder score name k i))).encode) ∧
          (List.range n).flatMap (pageOf t.inorder score name k) =
            (t.inorder.drop (countBelow t.inorder score name)).take (n * k) := by
  obtain ⟨st, outs, m, hrun, h⟩ := store_run_models treeReading_sound strtod pre (Store.models_empty threads)
  refine ⟨st, outs, m, hrun, h, fun key arg name score t d k n evs hset hsize hscore hk hlimit hn hpaging => ?_⟩
  obtain ⟨st', outs', hrun', hpages⟩ := paging_run strtod hsize hscore hlimit hn h hset hpaging
  rw [Nat.sub_zero, ← List.range_eq_range'] at hpages
  exact ⟨st', outs', hrun', hpages, flatMap_pageOf _ score name hk n⟩

/-- Two pages of two members, and a request on another key between them. -/
def twoPages : List StoreEvent :=
  [.execute 0 0 (pageCmd (bytes "z") (bytes "0") [] 2 0), .execute 0 0 [bytes "set", bytes "y", bytes "1"],
    .execute 0 0 (pageCmd (bytes "z") (bytes "0") [] 2 1)]

theorem paging_twoPages {d : Option Nat} (hbefore : Before (some d) 0) :
    Paging (bytes "z") (bytes "0") [] 2 d 0 twoPages 2 := by
  refine ⟨hbefore, ?_⟩
  rw [if_pos (by decide)]
  refine ⟨by decide, hbefore, ?_⟩
  rw [if_neg (by decide)]
  refine ⟨hbefore, ?_⟩
  rw [if_pos (by decide)]
  exact ⟨by decide, rfl⟩

/-- The two pages of a set of three. -/
theorem zquery_pages_three : ∃ st outs st' outs',
    run (storeStep strtodZero) {} (zaddAll [bytes "a", bytes "b", bytes "c"]) = some (st, outs) ∧
    run (storeStep strtodZero) st twoPages = some (st', outs') ∧
    answersOn (· == bytes "z") twoPages outs' =
      [(Value.arr (memberValues [⟨.zero, bytes "a"⟩, ⟨.zero, bytes "b"⟩])).encode,
        (Value.arr (memberValues [⟨.zero, bytes "c"⟩])).encode] := by
  obtain ⟨st₀, outs₀, st₁, -, hrun₀, hexp, -, -, hL⟩ := zaddAll_spec [bytes "a", bytes "b", bytes "c"] (by simp)
  obtain ⟨st, outs, m, hrun, h, hpages⟩ := zquery_pages strtodZero 0 (zaddAll [bytes "a", bytes "b", bytes "c"])
  obtain ⟨rfl, rfl⟩ : st₀ = st ∧ outs₀ = outs := by
    rw [hrun] at hrun₀
    cases hrun₀
    exact ⟨rfl, rfl⟩
  obtain ⟨st₁', hexp', h₁⟩ := expire_spec h 0
  obtain rfl : st₁' = st₁ := by
    rw [hexp] at hexp'
    cases hexp'
    rfl
  rcases (h₁.inOrder_iff _ _).mp hL with ⟨-, hnil⟩ | ⟨t, d, hset, ht⟩
  · exact absurd (congrArg List.length hnil) (by decide)
  · -- the key was not due at time zero, so it is there as long as the requests are made then
    rw [lookup_purge, Option.filter_eq_some_iff] at hset
    obtain ⟨hset, hdue⟩ := hset
    have hbefore : Before (some d) 0 := by
      rintro x hx
      cases hx
      exact Nat.pos_of_ne_zero (by simpa [RefEntry.due] using hdue)
    have hsize : t.numNodes < 2 ^ 32 := by
      rw [← length_inorder, ← ht]
      decide
    obtain ⟨st', outs', hrun', hans, -⟩ := hpages (bytes "z") (bytes "0") [] .zero t d 2 2 twoPages
      hset hsize (by decide) (by decide) (by decide) (by decide) (paging_twoPages hbefore)
    rw [← ht] at hans
    exact ⟨st₀, outs₀, st', outs', hrun, hrun', hans.trans (by decide +kernel)⟩

end ApexDB
