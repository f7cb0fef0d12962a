import ApexDB.Proof.MemberOrder

/-!
# What the tree of members is, as a set

The order the source compares by is that of `place` (`zless_iff`). From that the three facts the
rest needs follow: `erase` removes exactly one member, `add` gives exactly one name its score,
and a range query is a slice of the sorted list as long as the counters have not wrapped.

Nothing here speaks of addresses. `ZTree.Ok` has what the pointers keep of the tree they form
(balance) and what they keep of its contents (order, and no name twice), and each function of
`Spec/ZTree.lean` is shown to keep all three.
-/

set_option autoImplicit false

namespace ApexDB

open Lib BinaryTree

/-! ## 1. Members

A member is found by its name in a tree that is ordered by score, so `find` goes over the whole
list; the source has the hash map for it.
-/

namespace ZTree

variable {t : ZTree} {z : ZNode} {name : Bytes} {score : Dbl}

theorem find_some (h : t.find name = some z) : z ∈ t.inorder ∧ z.name = name := by
  unfold find at h
  exact ⟨List.mem_of_find?_eq_some h, by simpa using List.find?_some h⟩

theorem find_none : t.find name = none ↔ ∀ z ∈ t.inorder, z.name ≠ name := by
  simp [find]

/-- With no name twice, being a member and being found are the same. -/
theorem Ok.find_iff (h : t.Ok) : t.find name = some z ↔ z ∈ t.inorder ∧ z.name = name := by
  refine ⟨find_some, fun ⟨hz, hname⟩ => ?_⟩
  cases hf : t.find name with
  | none => exact absurd hname (find_none.mp hf z hz)
  | some z' =>
    obtain ⟨hz', hname'⟩ := find_some hf
    rw [List.inj_on_of_nodup_map h.names hz' hz (hname'.trans hname.symm)]

/-- **`erase` removes exactly the member of that name.** -/
theorem Ok.inorder_erase (h : t.Ok) (name : Bytes) :
    (t.erase name).inorder = t.inorder.filter fun z => z.name != name := by
  unfold erase
  split
  · rename_i hnone
    rw [locate_none] at hnone
    refine (List.filter_eq_self.mpr fun z hz => ?_).symm
    have := hnone z hz
    simpa using this
  · rename_i L hL
    obtain ⟨htree, hname⟩ := locate_some hL
    rw [plug_nil] at htree
    have hnd := h.names
    rw [← htree, L.inorder_tree, List.map_append, List.map_cons, List.nodup_middle, List.nodup_cons,
      ← List.map_append] at hnd
    have hother : ∀ z ∈ before L.ctx ++ L.left.inorder ++ (L.right.inorder ++ after L.ctx),
        (z.name != name) = true := by
      intro z hz
      have hne : z.name ≠ L.val.name := fun heq => hnd.1 (heq ▸ List.mem_map_of_mem hz)
      simp only [beq_iff_eq] at hname
      simpa [hname] using hne
    have hval : ¬(L.val.name != name) = true := by simpa using hname
    rw [inorder_removeAt, ← htree, L.inorder_tree, List.filter_append,
      List.filter_cons_of_neg (p := fun z : ZNode => z.name != name) hval, ← List.filter_append, List.filter_eq_self.mpr hother]
    simp

theorem Ok.erase (h : t.Ok) (name : Bytes) : (t.erase name).Ok where
  balanced := by
    unfold ZTree.erase
    split
    · exact h.balanced
    · rename_i L hL
      have htree := (locate_some hL).1
      rw [plug_nil] at htree
      exact balanced_removeAt (x := L.val) (by
        have := h.balanced
        rwa [← htree] at this)
  sorted := by
    rw [h.inorder_erase]
    exact h.sorted.filter _
  names := by
    rw [h.inorder_erase]
    exact h.names.sublist (List.filter_sublist.map _)

theorem Ok.inorder_insert (h : t.Ok) (z : ZNode) :
    (t.insert z).inorder = t.inorder.filter (fun x => !zlessNode z x) ++
      z :: t.inorder.filter (zlessNode z) := by
  have hmono : t.inorder.Pairwise (fun x y => zlessNode z x = true → zlessNode z y = true) := by
    refine h.sorted.imp fun {a b} hab hza => ?_
    rw [zlessNode_iff] at hza ⊢
    exact hza.trans hab
  obtain ⟨hb, ha⟩ := descend_split (c := []) hmono
  unfold insert
  rw [inorder_fixUp, hb, ha]
  simp [before, after]

theorem Ok.perm_insert (h : t.Ok) (z : ZNode) : (t.insert z).inorder.Perm (z :: t.inorder) := by
  rw [h.inorder_insert]
  refine List.perm_middle.trans ?_
  refine List.Perm.cons z (List.perm_append_comm.trans ?_)
  exact List.filter_append_perm (zlessNode z) t.inorder

theorem Ok.insert (h : t.Ok) (hfree : t.find z.name = none) : (t.insert z).Ok where
  balanced := balanced_insertAt (by rw [plug_descend]; exact h.balanced)
  sorted := by
    rw [h.inorder_insert, List.pairwise_append, List.pairwise_cons]
    have hlt : ∀ a ∈ t.inorder.filter (fun x => !zlessNode z x), a.place < z.place := by
      intro a ha
      obtain ⟨ha, hn⟩ := List.mem_filter.mp ha
      have hge : ¬z.place < a.place := by
        rw [← zlessNode_iff]
        simpa using hn
      refine lt_of_le_of_ne (not_lt.mp hge) fun heq => ?_
      exact find_none.mp hfree a ha (ZNode.name_eq_of_place_eq heq)
    have hgt : ∀ a ∈ t.inorder.filter (zlessNode z), z.place < a.place :=
      fun a ha => (zlessNode_iff z a).mp (List.mem_filter.mp ha).2
    refine ⟨h.sorted.filter _, ⟨hgt, h.sorted.filter _⟩, fun a ha b hb => ?_⟩
    rcases List.mem_cons.mp hb with rfl | hb
    · exact hlt a ha
    · exact (hlt a ha).trans (hgt b hb)
  names := by
    rw [((h.perm_insert z).map _).nodup_iff, List.map_cons, List.nodup_cons]
    refine ⟨fun hmem => ?_, h.names⟩
    obtain ⟨a, ha, hname⟩ := List.mem_map.mp hmem
    exact find_none.mp hfree a ha hname

theorem Ok.find_erase (h : t.Ok) (name m : Bytes) :
    (t.erase name).find m = if m = name then none else t.find m := by
  refine Option.ext fun z => ?_
  rw [(h.erase name).find_iff, h.inorder_erase, List.mem_filter]
  by_cases hm : m = name
  · simp only [hm, if_true, reduceCtorEq, iff_false]
    rintro ⟨⟨-, hne⟩, heq⟩
    simp [heq] at hne
  · simp only [hm, if_false, h.find_iff]
    constructor
    · rintro ⟨⟨hz, -⟩, heq⟩
      exact ⟨hz, heq⟩
    · rintro ⟨hz, heq⟩
      exact ⟨⟨hz, by simpa [heq] using hm⟩, heq⟩

theorem Ok.find_insert (h : t.Ok) (hfree : t.find z.name = none) (m : Bytes) :
    (t.insert z).find m = if m = z.name then some z else t.find m := by
  refine Option.ext fun y => ?_
  rw [(h.insert hfree).find_iff, (h.perm_insert z).mem_iff, List.mem_cons]
  by_cases hm : m = z.name
  · simp only [hm, if_true, Option.some.injEq]
    constructor
    · rintro ⟨rfl | hy, heq⟩
      · rfl
      · exact absurd heq (find_none.mp hfree y hy)
    · rintro rfl
      exact ⟨.inl rfl, rfl⟩
  · simp only [hm, if_false, h.find_iff]
    constructor
    · rintro ⟨rfl | hy, heq⟩
      · exact absurd heq.symm hm
      · exact ⟨hy, heq⟩
    · rintro ⟨hy, heq⟩
      exact ⟨.inr hy, heq⟩

/-- The score a member has after `add`: the new one, unless the old one is the same number. -/
def newScore (old : Option ZNode) (score : Dbl) : Dbl :=
  match old with
  | none => score
  | some z => if z.score.eq score then z.score else score

/-- **`add` gives this name its score and leaves the others alone.** -/
theorem Ok.add (h : t.Ok) (name : Bytes) (score : Dbl) :
    (t.add name score).Ok ∧ ∀ m, (t.add name score).find m =
      if m = name then some ⟨newScore (t.find name) score, name⟩ else t.find m := by
  unfold ZTree.add
  cases hf : t.find name with
  | none => exact ⟨h.insert (z := ⟨score, name⟩) hf, h.find_insert (z := ⟨score, name⟩) hf⟩
  | some z =>
    obtain ⟨-, hname⟩ := find_some hf
    simp only [newScore]
    split
    · refine ⟨h, fun m => ?_⟩
      split
      · rename_i hm
        rw [hm, hf, ← hname]
      · rfl
    · have hfree : (t.erase name).find name = none := by rw [h.find_erase, if_pos rfl]
      refine ⟨(h.erase name).insert (z := ⟨score, name⟩) hfree, fun m => ?_⟩
      rw [(h.erase name).find_insert (z := ⟨score, name⟩) hfree, h.find_erase]
      split
      · rfl
      · rfl

/-! ## 2. Range queries

The list is in the order of places, so the members that are below a pair are an initial part of
it, and `seek` stops right behind them. From there a walk of `offset` steps and then of one step
at a time lists a contiguous part.
-/

/-- With room in the counters, walking on by one lists the rest of the set. -/
theorem collect_eq (ht : t.numNodes < 2 ^ 32) : ∀ (n : Nat) (L : Loc ZNode), L.tree = t →
    collect n (some L) = (t.inorder.drop L.rank).take n := by
  intro n
  induction n with
  | zero => intro L _; rfl
  | succ n ih =>
    intro L hL
    have hget : t.inorder.drop L.rank = L.val :: t.inorder.drop (L.rank + 1) := by
      have hlt : L.rank < t.inorder.length := by
        rw [length_inorder, ← hL]
        exact L.rank_lt
      have hval := L.getElem?_rank
      rw [hL, List.getElem?_eq_getElem hlt, Option.some.injEq] at hval
      rw [List.drop_eq_getElem_cons hlt, hval]
    obtain ⟨hsome, hnone⟩ := rankWalk_spec (w := 2 ^ 32) L 1 (hL ▸ ht)
    rw [collect, hget, List.take_succ_cons]
    cases hw : rankWalk (2 ^ 32) L 1 with
    | some M =>
      obtain ⟨hM, hrank⟩ := hsome M hw
      have hk : M.rank = L.rank + 1 := by omega
      rw [ih M (hM.trans hL), hk]
    | none =>
      have hend : t.inorder.length ≤ L.rank + 1 := by
        have := hnone hw
        rw [hL] at this
        rw [length_inorder]
        omega
      rw [List.drop_eq_nil_of_le hend, List.take_nil]
      cases n <;> rfl

/-- **A range query is a slice of the sorted list**, as long as the counters can count the
members. -/
theorem Ok.query_eq (h : t.Ok) (ht : t.numNodes < 2 ^ 32) (score : Dbl) (name : Bytes)
    (offset limit : Int) :
    t.query score name offset limit = rangeOf t.inorder score name offset limit := by
  have hmono : t.inorder.Pairwise
      (fun x y => zless y score name = true → zless x score name = true) := by
    refine h.sorted.imp fun {a b} hab hb => ?_
    rw [zless_iff] at hb ⊢
    exact hab.trans hb
  obtain ⟨hsome, hnone⟩ := seek_spec (c := []) (b := none) hmono (fun L hL => by cases hL)
  have hstop : ∀ n, collect n none = [] := fun n => by cases n <;> rfl
  simp only [query, seekge, rangeOf]
  cases hs : seek (fun z => zless z score name) t [] none with
  | none =>
    rw [if_pos (.inl ((hnone hs).2.trans (length_inorder t).symm))]
    exact hstop _
  | some L =>
    obtain ⟨htree, hrank⟩ := hsome L hs
    rw [plug_nil] at htree
    simp only [before, List.length_nil, Nat.zero_add] at hrank
    rw [← hrank, Option.bind_some]
    have hlt : L.rank < t.inorder.length := by
      rw [length_inorder, ← htree]
      exact L.rank_lt
    obtain ⟨hw₁, hw₂⟩ := rankWalk_spec (w := 2 ^ 32) L offset (htree ▸ ht)
    cases hw : rankWalk (2 ^ 32) L offset with
    | none =>
      have hout := hw₂ hw
      rw [htree, ← length_inorder] at hout
      rw [if_pos (.inr hout)]
      exact hstop _
    | some M =>
      obtain ⟨hM, hk⟩ := hw₁ M hw
      have hM' := M.rank_lt
      rw [hM, htree, ← length_inorder] at hM'
      rw [if_neg (by omega), collect_eq ht _ M (hM.trans htree)]
      congr 2
      omega

end ZTree

end ApexDB
