import ApexDB.Proof.StoreRuns

/-!
# Where the three provisos of the reference come from

Without them (`naiveReading`) the store is not followed:

- a clock past `2 ^ 63` milliseconds lets a deadline wrap around, and the key is gone at once;
- `-0.0` does not replace `0.0`, so the reply shows the old bits;
- in a set of more than `2 ^ 33` members some subtree of the root has `2 ^ 32` or more, its counter has wrapped, and
  a range query that should step over it finds nothing. The walk from the root looks at that counter first and gives
  up (`query_root_eq_nil`), so the tree need not be known.

The first two are runs of a few requests and are evaluated. The third has more requests than
anybody can run, and is followed by the reference instead.
-/

set_option autoImplicit false

namespace ApexDB

open Lib BinaryTree

def negZero : Dbl := ⟨2 ^ 63, by decide, by decide⟩

/-- `strtod` on the two spellings of zero that are used here. -/
def strtodZero (s : Bytes) : StrtodResult :=
  if s = bytes "0" then ⟨some .zero, 1, false⟩
  else if s = bytes "-0" then ⟨some negZero, 2, false⟩
  else ⟨none, 0, false⟩

theorem str2dbl_zero : str2dbl strtodZero (bytes "0") = some .zero := by decide

/-! ## 1. The reference with one entry

The runs use one key, so the map of the reference has one entry, and each command is one
equation.
-/

def oneSet {Z : Type} (s : Z) : RefStore Z := Finmap.insert (bytes "z") ⟨.zset s, none⟩ ∅

section Reference

variable {Z : Type} (R : Reading Z)

theorem next_first_set (t now clk : Nat) (key val : Bytes) :
    (refMachine R strtodZero).next ⟨∅, t⟩ (.execute now clk [bytes "set", key, val]) =
      ⟨Finmap.insert key ⟨.str val, none⟩ ∅, clk⟩ := by
  have hpurge : RefStore.purge now (∅ : RefStore Z) = ∅ := rfl
  have hcmd : dispatch [bytes "set", key, val] = .set key val := rfl
  simp only [refMachine, hpurge, hcmd, refCommand, Finmap.lookup_empty]

theorem next_pexpire {t now clk : Nat} {key arg : Bytes} {ttl : Int} (v : RefValue Z)
    (harg : str2int arg = some ttl) (hpos : ¬ttl ≤ 0) :
    (refMachine R strtodZero).next ⟨Finmap.insert key ⟨v, none⟩ ∅, t⟩
        (.execute now clk [bytes "pexpire", key, arg]) =
      ⟨Finmap.insert key ⟨v, some (R.deadline clk ttl.toNat)⟩ ∅, clk⟩ := by
  have hcmd : dispatch [bytes "pexpire", key, arg] = .pexpire key arg := rfl
  have hpurge : RefStore.purge now (Finmap.insert key ⟨v, none⟩ ∅) = Finmap.insert key ⟨v, none⟩ ∅ :=
    purge_single rfl
  simp only [refMachine, hpurge, hcmd, refCommand, refExpire, harg, Finmap.lookup_insert, if_neg hpos,
    Finmap.insert_insert]

theorem purge_oneSet (s : Z) : (oneSet s).purge 0 = oneSet s := purge_single rfl

theorem dispatch_zadd (arg n : Bytes) : dispatch [bytes "zadd", bytes "z", arg, n] =
    .zadd (bytes "z") arg n := by
  simp only [dispatch, argAt, List.length_cons, List.length_nil, List.getD_cons_zero]
  rfl

variable {R} {arg : Bytes} {score : Dbl} (harg : str2dbl strtodZero arg = some score)

include harg

theorem next_zadd (s : Z) (n : Bytes) : (refMachine R strtodZero).next ⟨oneSet s, 0⟩
    (.execute 0 0 [bytes "zadd", bytes "z", arg, n]) = ⟨oneSet (R.add s n score), 0⟩ := by
  simp only [refMachine, purge_oneSet, dispatch_zadd, refCommand, refZadd, harg]
  simp only [oneSet, Finmap.lookup_insert, Finmap.insert_insert]

theorem next_first_zadd (n : Bytes) : (refMachine R strtodZero).next ⟨∅, 0⟩
    (.execute 0 0 [bytes "zadd", bytes "z", arg, n]) = ⟨oneSet (R.add R.empty n score), 0⟩ := by
  have hpurge : RefStore.purge 0 (∅ : RefStore Z) = ∅ := rfl
  simp only [refMachine, hpurge, dispatch_zadd, refCommand, refZadd, harg, Finmap.lookup_empty]
  rfl

end Reference

/-! ## 2. A deadline that wraps, and a zero that stays

Both are runs on which the store answers and the naive reference does not admit the answer.
-/

/-- The key gets the longest time to live when the clock is at `2 ^ 63 + 1`. -/
def wrapRun : List StoreEvent :=
  [.execute (2 ^ 63 + 1) (2 ^ 63 + 1) [bytes "set", bytes "k", bytes "v"],
    .execute (2 ^ 63 + 1) (2 ^ 63 + 1) [bytes "pexpire", bytes "k", bytes "9223372036854775807"],
    .execute (2 ^ 63 + 1) (2 ^ 63 + 1) [bytes "exists", bytes "k"]]

/-- One member gets the score `0.0`, and then `-0.0`. -/
def zeroRun : List StoreEvent :=
  [.execute 0 0 [bytes "zadd", bytes "z", bytes "0", bytes "a"],
    .execute 0 0 [bytes "zadd", bytes "z", bytes "-0", bytes "a"],
    .execute 0 0 [bytes "zscore", bytes "z", bytes "a"]]

/-- What the store answers differs from the reference. -/
def Diverges (evs : List StoreEvent) : Prop :=
  (refMachine naiveReading strtodZero).Legal ⟨∅, 0⟩ evs ∧
  ∃ st outs, run (storeStep strtodZero) {} evs = some (st, outs) ∧
    ¬(refMachine naiveReading strtodZero).Admits ⟨∅, 0⟩ evs outs

theorem wrapRun_diverges : Diverges wrapRun := by
  refine ⟨by simp [wrapRun, Machine.Legal, refMachine], ?_⟩
  have hrun : (run (storeStep strtodZero) {} wrapRun).map Prod.snd =
      some [(Value.str (bytes "OK")).encode, (Value.int 1).encode, (Value.int 0).encode] := by
    rfl
  obtain ⟨⟨st, outs⟩, hrun, rfl⟩ := Option.map_eq_some_iff.mp hrun
  refine ⟨st, _, hrun, fun h => ?_⟩
  obtain ⟨-, -, ⟨v, hv, hadm⟩, -⟩ := h
  have harg : str2int (bytes "9223372036854775807") = some (2 ^ 63 - 1) := by decide +kernel
  have hcmd : dispatch [bytes "exists", bytes "k"] = .exists (bytes "k") := rfl
  -- in the reference the deadline is `2 ^ 64`, and the key is there
  rw [next_first_set, next_pexpire naiveReading (.str (bytes "v")) harg (by decide), hcmd,
    purge_single (by decide)] at hadm
  simp only [refCommand, Finmap.lookup_insert] at hadm
  obtain rfl : v = .int 1 := hadm
  exact absurd hv (by decide)

theorem zeroRun_diverges : Diverges zeroRun := by
  refine ⟨by simp [zeroRun, Machine.Legal, refMachine], ?_⟩
  have hrun : (run (storeStep strtodZero) {} zeroRun).map Prod.snd =
      some [(Value.int 1).encode, (Value.int 0).encode, (Value.dbl Dbl.zero.bits).encode] := by
    rfl
  obtain ⟨⟨st, outs⟩, hrun, rfl⟩ := Option.map_eq_some_iff.mp hrun
  refine ⟨st, _, hrun, fun h => ?_⟩
  obtain ⟨-, -, ⟨v, hv, hadm⟩, -⟩ := h
  have harg : str2dbl strtodZero (bytes "-0") = some negZero := by decide
  have hcmd : dispatch [bytes "zscore", bytes "z", bytes "a"] = .zscore (bytes "z") (bytes "a") := rfl
  -- in the reference the second score replaces the first
  rw [next_first_zadd str2dbl_zero, next_zadd harg, hcmd, purge_oneSet] at hadm
  simp only [refCommand, refZscore, refZset, oneSet, naiveReading, Finmap.lookup_insert] at hadm
  obtain rfl : v = .dbl negZero.bits := hadm
  exact absurd hv (by decide)

/-! ## 3. A counter that wraps

The tree of a large set is the result of more insertions than can be listed. All that is used of
it is that it is in order, and that one of the subtrees of its root is past what a counter
holds.
-/

section Large

variable {t : ZTree} {z : ZNode} {l r : BinaryTree ZNode}

/-- Below the root, in the order of the set, is its left subtree. -/
theorem zless_root (h : ZTree.Ok (node z l r)) : (∀ x ∈ l.inorder, zless x z.score z.name = true) ∧
    ∀ x ∈ z :: r.inorder, zless x z.score z.name = false := by
  have hs := h.sorted
  rw [inorder_node, List.pairwise_append, List.pairwise_cons] at hs
  obtain ⟨-, ⟨hr, -⟩, hl⟩ := hs
  refine ⟨fun x hx => (zless_iff _ _ _).mpr (hl x hx z List.mem_cons_self), fun x hx => ?_⟩
  rw [Bool.eq_false_iff, Ne, zless_iff]
  rcases List.mem_cons.mp hx with rfl | hx
  · exact lt_irrefl _
  · exact (hr x hx).asymm

/-- **A query that starts at the root and skips `2 ^ 32` members lists nothing.** -/
theorem query_root_eq_nil (h : ZTree.Ok (node z l r)) {offset : Int}
    (ho : (2 ^ 32 : Nat) ≤ offset ∨ offset ≤ -(2 ^ 32 : Nat)) (limit : Int) :
    ZTree.query (node z l r) z.score z.name offset limit = [] := by
  have hseek : ZTree.seekge (node z l r) z.score z.name = some ⟨z, l, r, []⟩ := by
    rw [ZTree.seekge, seek, if_neg (by simp [(zless_root h).2 z List.mem_cons_self])]
    exact seek_of_forall (zless_root h).1
  rw [ZTree.query, hseek, Option.bind_some, rankWalk_root (by decide) z l r ho]
  cases (limit.toNat + 1) / 2 <;> rfl

/-- The slice it should list, as long as there is a member there. -/
theorem rangeOf_root_ne_nil (h : ZTree.Ok (node z l r)) {offset : Int} (h₀ : 0 ≤ l.numNodes + offset)
    (h₁ : l.numNodes + offset ≤ l.numNodes + r.numNodes) :
    rangeOf (node z l r).inorder z.score z.name offset 2 ≠ [] := by
  have hp : (node z l r).inorder.countP (fun x => zless x z.score z.name) = l.numNodes := by
    rw [inorder_node, List.countP_append, List.countP_eq_length.mpr (zless_root h).1,
      List.countP_eq_zero.mpr (by simpa using (zless_root h).2), length_inorder, Nat.add_zero]
  have hlen : (node z l r).inorder.length = l.numNodes + r.numNodes + 1 := by
    rw [length_inorder, numNodes]
  unfold rangeOf
  simp only [hp, hlen]
  rw [if_neg (by omega), Ne, List.take_eq_nil_iff, List.drop_eq_nil_iff, hlen]
  omega

/-- Distinct new names make the tree grow, and the map of the reference with it. -/
theorem foldl_add_spec : ∀ (ns : List Bytes) {t : ZTree} {m : Members}, t.Ok → ScoresOf t m →
    ns.Nodup → (∀ n ∈ ns, t.find n = none) → (∀ x ∈ t.inorder, x.score = .zero) →
    (ns.foldl (fun t n => t.add n .zero) t).Ok ∧
    ScoresOf (ns.foldl (fun t n => t.add n .zero) t)
      (ns.foldl (fun m n => m.insert n Dbl.zero) m) ∧
    (ns.foldl (fun t n => t.add n .zero) t).numNodes = t.numNodes + ns.length ∧
    ∀ x ∈ (ns.foldl (fun t n => t.add n .zero) t).inorder, x.score = .zero := by
  intro ns
  induction ns with
  | nil => intro t m ht hm _ _ hz; exact ⟨ht, hm, rfl, hz⟩
  | cons n ns ih =>
    intro t m ht hm hn hnew hz
    rw [List.nodup_cons] at hn
    have hfree := hnew n List.mem_cons_self
    have hperm : (t.add n .zero).inorder.Perm (⟨.zero, n⟩ :: t.inorder) := by
      rw [ZTree.add, hfree]
      exact ht.perm_insert _
    obtain ⟨h₁, h₂, h₃, h₄⟩ := ih (ht.add n .zero).1 (hm.insert ht (by rw [hfree]; rfl)) hn.2
      (by
        intro n' hn'
        have hne : n' ≠ n := fun heq => hn.1 (heq ▸ hn')
        rw [(ht.add n .zero).2, if_neg hne]
        exact hnew n' (List.mem_cons_of_mem _ hn'))
      (by
        intro x hx
        rcases List.mem_cons.mp (hperm.mem_iff.mp hx) with rfl | hx
        · rfl
        · exact hz x hx)
    refine ⟨h₁, h₂, ?_, h₄⟩
    rw [List.foldl_cons, h₃, ← length_inorder, hperm.length_eq, List.length_cons, length_inorder,
      List.length_cons]
    omega

end Large

/-- Members with these names are added to one set, all with the score `0.0`. -/
def zaddAll (ns : List Bytes) : List StoreEvent :=
  ns.map fun n => .execute 0 0 [bytes "zadd", bytes "z", bytes "0", n]

section Reference

variable {Z : Type} (R : Reading Z)

theorem final_zaddAll : ∀ (ns : List Bytes) (s : Z),
    (refMachine R strtodZero).final ⟨oneSet s, 0⟩ (zaddAll ns) =
      ⟨oneSet (ns.foldl (fun s n => R.add s n .zero) s), 0⟩ := by
  intro ns
  induction ns with
  | nil => intro s; rfl
  | cons n ns ih =>
    intro s
    have hstep := next_zadd (R := R) str2dbl_zero s n
    rw [zaddAll, List.map_cons, Machine.final, List.foldl_cons, hstep]
    exact ih _

theorem final_zaddAll_empty {ns : List Bytes} (hns : ns ≠ []) :
    (refMachine R strtodZero).final ⟨∅, 0⟩ (zaddAll ns) =
      ⟨oneSet (ns.foldl (fun s n => R.add s n .zero) R.empty), 0⟩ := by
  cases ns with
  | nil => exact absurd rfl hns
  | cons n ns =>
    have hstep := next_first_zadd (R := R) str2dbl_zero n
    rw [zaddAll, List.map_cons, Machine.final, List.foldl_cons, hstep]
    exact final_zaddAll R ns _

theorem legal_of_zero : ∀ (cmds : List (List Bytes)) (m : RefStore Z),
    (refMachine R strtodZero).Legal ⟨m, 0⟩ (cmds.map (.execute 0 0)) := by
  intro cmds
  induction cmds with
  | nil => intro m; trivial
  | cons cmd cmds ih => intro m; exact ⟨⟨Nat.le_refl _, Nat.le_refl _⟩, ih _⟩

theorem dispatch_zquery (n off : Bytes) :
    dispatch [bytes "zquery", bytes "z", bytes "0", n, off, bytes "2"] =
      .zquery (bytes "z") (bytes "0") n off (bytes "2") := by
  simp only [dispatch, argAt, List.length_cons, List.length_nil, List.getD_cons_zero]
  rfl

/-- What the reference answers to a query of one member of the set. -/
theorem admits_zquery {s : Z} {n off : Bytes} {offset : Int} (hoff : str2int off = some offset)
    (hex : R.exact s) {o : Bytes} (h : (refMachine R strtodZero).admits ⟨oneSet s, 0⟩
      (.execute 0 0 [bytes "zquery", bytes "z", bytes "0", n, off, bytes "2"]) o) :
    o = (Value.arr (memberValues (R.query s .zero n offset 2))).encode := by
  obtain ⟨v, rfl, hv⟩ := h
  have hlim : str2int (bytes "2") = some 2 := by decide
  have hset : refZset R (oneSet s) (bytes "z") = some s := by
    rw [refZset, oneSet, Finmap.lookup_insert]
  simp only [purge_oneSet, dispatch_zquery, refCommand, refZquery, str2dbl_zero, hoff, hlim, hset] at hv
  rw [if_neg (by decide)] at hv
  rw [hv.1 hex]

end Reference

theorem encode_arr_ne {zs : List ZNode} (h : zs ≠ []) :
    (Value.arr (memberValues [])).encode ≠ (Value.arr (memberValues zs)).encode := by
  obtain ⟨z, zs, rfl⟩ := List.exists_cons_of_ne_nil h
  intro heq
  have hlen := congrArg List.length heq
  simp [memberValues, Value.encode, Value.encodeAll, length_le] at hlen

/-- **A set of more than `2 ^ 33` members has one that the walk from the root does not reach**:
one of the two subtrees of the root is past what a counter holds. -/
theorem exists_out_of_reach {ns : List Bytes} (hn : ns.Nodup) (hlen : 2 ^ 33 < ns.length) :
    ∃ (z : ZNode) (l r : BinaryTree ZNode) (off : Bytes) (offset : Int),
      ns.foldl (fun t n => ZTree.add t n .zero) nil = node z l r ∧ ZTree.Ok (node z l r) ∧
      ScoresOf (node z l r) (ns.foldl (fun m n => m.insert n Dbl.zero) ∅) ∧ z.score = .zero ∧
      str2int off = some offset ∧ ((2 ^ 32 : Nat) ≤ offset ∨ offset ≤ -(2 ^ 32 : Nat)) ∧
      0 ≤ l.numNodes + offset ∧ l.numNodes + offset ≤ l.numNodes + r.numNodes := by
  obtain ⟨hok, hscores, hsize, hzero⟩ := foldl_add_spec ns ZTree.ok_nil scoresOf_empty hn
    (fun _ _ => rfl) (fun x hx => by cases hx)
  cases htree : ns.foldl (fun t n => ZTree.add t n .zero) nil with
  | nil =>
    rw [htree, numNodes] at hsize
    omega
  | node z l r =>
    rw [htree] at hok hscores hsize hzero
    rw [numNodes, numNodes] at hsize
    have hz : z.score = .zero := hzero z (by simp)
    rcases Nat.lt_or_ge r.numNodes (2 ^ 32) with hr | hr
    · exact ⟨z, l, r, bytes "-4294967296", -4294967296, rfl, hok, hscores, hz, by decide +kernel,
        .inr (by omega), by omega, by omega⟩
    · exact ⟨z, l, r, bytes "4294967296", 4294967296, rfl, hok, hscores, hz, by decide +kernel,
        .inl (by omega), by omega, by omega⟩

/-- **A set of more than `2 ^ 33` members diverges from the reference.** -/
theorem zaddAll_diverges {ns : List Bytes} (hn : ns.Nodup) (hlen : 2 ^ 33 < ns.length) :
    ∃ last, Diverges (zaddAll ns ++ [last]) := by
  have hns : ns ≠ [] := List.ne_nil_of_length_pos (by omega)
  obtain ⟨z, l, r, off, offset, htree, hok, hscores, hz, hoff, hbig, h₀, h₁⟩ :=
    exists_out_of_reach hn hlen
  refine ⟨.execute 0 0 [bytes "zquery", bytes "z", bytes "0", z.name, off, bytes "2"], ?_⟩
  have hevs : zaddAll ns ++ [.execute 0 0 [bytes "zquery", bytes "z", bytes "0", z.name, off, bytes "2"]] =
      (ns.map (fun n => [bytes "zadd", bytes "z", bytes "0", n]) ++
        [[bytes "zquery", bytes "z", bytes "0", z.name, off, bytes "2"]]).map (.execute 0 0) := by
    rw [zaddAll, List.map_append, List.map_map]
    rfl
  refine ⟨hevs ▸ legal_of_zero naiveReading _ _, ?_⟩
  obtain ⟨st, outs, hrun, hadm, -⟩ := (refMachine treeReading strtodZero).run_refines
    (R := Store.Follows (· = ·))
    (fun _ _ ev h hp => storeStep_refines treeReading_sound strtodZero h ev hp) _ {} ⟨∅, 0⟩
    (Store.follows_empty 0) (hevs ▸ legal_of_zero treeReading _ _)
  refine ⟨st, outs, hrun, fun hnaive => ?_⟩
  obtain ⟨os, o, rfl, ho⟩ := hadm.concat
  obtain ⟨os', o', heq, ho'⟩ := hnaive.concat
  obtain rfl : o = o' := (List.cons.inj (List.append_inj_right' heq rfl)).1
  rw [final_zaddAll_empty treeReading hns] at ho
  rw [final_zaddAll_empty naiveReading hns] at ho'
  have ho := admits_zquery treeReading hoff trivial ho
  have ho' := admits_zquery naiveReading hoff trivial ho'
  have hq : treeReading.query (ns.foldl (fun s n => treeReading.add s n .zero) treeReading.empty) .zero
      z.name offset 2 = [] := by
    have hnil := query_root_eq_nil hok hbig 2
    rw [hz] at hnil
    exact (congrArg (fun t => ZTree.query t .zero z.name offset 2) htree).trans hnil
  have hsorted : Members.sorted (ns.foldl (fun m n => m.insert n Dbl.zero) ∅) =
      (node z l r).inorder := hscores.sorted_eq hok
  have hq' : naiveReading.query
      (ns.foldl (fun s n => naiveReading.add s n .zero) naiveReading.empty) .zero z.name offset 2 ≠ [] := by
    have := rangeOf_root_ne_nil hok h₀ h₁
    rw [← hsorted, hz] at this
    exact this
  rw [ho, hq] at ho'
  exact encode_arr_ne hq' ho'

theorem nodup_names {n : Nat} (hn : n ≤ 2 ^ 64) : ((List.range n).map (le 8)).Nodup := by
  refine List.Nodup.map_on (fun i hi j hj hij => ?_) List.nodup_range
  have hi' := List.mem_range.mp hi
  have hj' := List.mem_range.mp hj
  have := congrArg ofLe hij
  rwa [ofLe_le_of_lt (by omega), ofLe_le_of_lt (by omega)] at this

/-- **The three runs on which the store and the naive reference part.** -/
theorem naive_reference_diverges : Diverges wrapRun ∧ Diverges zeroRun ∧ ∃ last,
    Diverges (zaddAll ((List.range (2 ^ 33 + 1)).map (le 8)) ++ [last]) :=
  ⟨wrapRun_diverges, zeroRun_diverges, zaddAll_diverges (nodup_names (by decide)) (by
    rw [List.length_map, List.length_range]
    omega)⟩

end ApexDB
