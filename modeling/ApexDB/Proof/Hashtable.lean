import Mathlib.Data.Nat.Bitwise
import ApexDB.Lib.Buckets
import ApexDB.Hashtable

/-!
# What one table does, and what migration keeps

The invariant of `src/hashtable.cpp`, and one specification per function of it. Everything a
caller may know about an `HMap` is the bag `HMap.nodes`; no lemma below this file mentions a
bucket again.

**`HMap.Ok` is the invariant nobody wrote down.** `hm_help_rehashing` scans `older` with no
bounds check, and it is safe only because `size` is exact and the buckets below `migrate_pos`
are empty: if the scan ever reached `mask + 1` every bucket would be empty and `size` would be
0, which is the loop condition it already tested. Both halves are fields of the invariant.

The specifications are stated for any callback and any hash codes. What a caller adds (that its
callback compares keys, and that its codes are hashes of keys) is `Proof/Index.lean`, once for
both callers.
-/

set_option autoImplicit false

namespace ApexDB

open Lib

variable {ι : Type}

/-! ## 1. The invariant

A live table has a mask that is one less than a power of two, so masking a code gives an index
into it. A node is in the bucket that its own code asks for; that is what makes a lookup in one
bucket enough.
-/

def HTab.nodes (t : HTab ι) : List (HNode ι) := (t.tab.getD []).flatten

/-- The nodes of the map, wherever the migration has left them. -/
def HMap.nodes (h : HMap ι) : List (HNode ι) := h.newer.nodes ++ h.older.nodes

/-- An allocated table: a power of two of buckets, at least the four of `hm_insert`, an exact
size, and every node in the bucket its hash code asks for under the mask. -/
structure HTab.Live (t : HTab ι) (tab : List (List (HNode ι))) : Prop where
  tab_eq : t.tab = some tab
  pow : ∃ k, 2 ≤ k ∧ tab.length = 2 ^ k
  mask_eq : t.mask + 1 = tab.length
  size_eq : t.size = tab.flatten.length
  placed : ∀ (i : Nat) (c : List (HNode ι)), tab[i]? = some c → ∀ n ∈ c, n.hcode &&& t.mask = i

def HTab.Ok (t : HTab ι) : Prop := t = {} ∨ ∃ tab, t.Live tab

/-- **The invariant of the map**: both tables are in order, there is no old one without a new
one, and the slots that the migration has passed are empty. -/
structure HMap.Ok (h : HMap ι) : Prop where
  newer : h.newer.Ok
  older : h.older.Ok
  first : h.newer.tab = none → h.older = {}
  swept : ∀ tab, h.older.tab = some tab → ∀ (i : Nat) (c : List (HNode ι)), i < h.migratePos →
    tab[i]? = some c → c = []

theorem HMap.ok_empty : ({} : HMap ι).Ok where
  newer := .inl rfl
  older := .inl rfl
  first := fun _ => rfl
  swept := fun _ h => by cases h

theorem HTab.Live.nodes_eq {t : HTab ι} {tab : List (List (HNode ι))} (h : t.Live tab) :
    t.nodes = tab.flatten := by
  simp [HTab.nodes, h.tab_eq]

theorem HTab.Ok.size_nodes {t : HTab ι} (h : t.Ok) : t.size = t.nodes.length := by
  rcases h with rfl | ⟨tab, h⟩
  · rfl
  · rw [h.size_eq, h.nodes_eq]

theorem HTab.Ok.live {t : HTab ι} {tab : List (List (HNode ι))} (h : t.Ok)
    (htab : t.tab = some tab) : t.Live tab := by
  rcases h with rfl | ⟨tab', h⟩
  · cases htab
  · have : tab' = tab := Option.some.inj (h.tab_eq.symm.trans htab)
    exact this ▸ h

theorem HTab.Ok.null {t : HTab ι} (h : t.Ok) (htab : t.tab = none) : t = {} := by
  rcases h with h | ⟨tab, h⟩
  · exact h
  · rw [h.tab_eq] at htab; cases htab

theorem HMap.Ok.size_nodes {h : HMap ι} (hok : h.Ok) : hmSize h = h.nodes.length := by
  rw [hmSize, hok.newer.size_nodes, hok.older.size_nodes, HMap.nodes, List.length_append]

/-! ## 2. One table

`h_lookup` returns a slot and `h_detach` takes one, so what the first one promises has to be
what the second one needs: `HTab.At` says that the slot points at a node of this table.
-/

theorem HTab.Live.slot_lt {t : HTab ι} {tab : List (List (HNode ι))} (h : t.Live tab) (x : Nat) :
    x &&& t.mask < tab.length := by
  have := Nat.and_le_right (n := x) (m := t.mask)
  have := h.mask_eq
  omega

/-- The bucket of a hash code exists, and a node of that code is in no other. So a search of
this bucket is a search of the table. -/
theorem HTab.Live.bucket {t : HTab ι} {tab : List (List (HNode ι))} (h : t.Live tab) (x : Nat) :
    ∃ c, tab[x &&& t.mask]? = some c ∧
      ∀ n ∈ t.nodes, n.hcode = x → n ∈ c := by
  obtain ⟨c, hc⟩ : ∃ c, tab[x &&& t.mask]? = some c := ⟨_, List.getElem?_eq_getElem (h.slot_lt x)⟩
  refine ⟨c, hc, fun n hn hx => ?_⟩
  rw [h.nodes_eq] at hn
  obtain ⟨i, c', hi, hn'⟩ := getElem?_of_mem_flatten hn
  have : i = x &&& t.mask := by rw [← hx]; exact (h.placed i c' hi n hn').symm
  subst this
  rw [hc] at hi
  cases hi
  exact hn'

/-- Replacing one bucket by one whose nodes belong there keeps the table allocated. The size has
to follow, which is a hypothesis here and a statement of the source at each use. -/
theorem HTab.Live.set {t : HTab ι} {tab : List (List (HNode ι))} (h : t.Live tab) {i : Nat}
    {c : List (HNode ι)} (n : Nat) (c' : List (HNode ι)) (hc : tab[i]? = some c)
    (hc' : ∀ x ∈ c', x.hcode &&& t.mask = i)
    (hn : n + c.length = t.size + c'.length) :
    HTab.Live { t with tab := some (tab.set i c'), size := n } (tab.set i c') where
  tab_eq := rfl
  pow := by simpa using h.pow
  mask_eq := by simpa using h.mask_eq
  size_eq := by
    obtain ⟨rest, h₁, h₂⟩ := flatten_set hc
    have e₁ := h₁.length_eq
    have e₂ := (h₂ c').length_eq
    have := h.size_eq
    simp only [List.length_append] at e₁ e₂
    show n = _
    omega
  placed := by
    intro j d hj x hx
    rw [List.getElem?_set] at hj
    split at hj
    · rename_i hij
      subst hij
      split at hj
      · cases hj; exact hc' x hx
      · cases hj
    · exact h.placed j d hj x hx

theorem two_pow_and_pred (k : Nat) : (2 ^ k - 1) &&& 2 ^ k = 0 := by
  rw [Nat.and_comm, Nat.and_two_pow_sub_one_eq_mod, Nat.mod_self]

theorem hInit_spec {k : Nat} (hk : 2 ≤ k) :
    ∃ (t : HTab ι) (tab : List (List (HNode ι))), hInit (2 ^ k) = some t ∧ t.Live tab ∧
      t.nodes = [] ∧ t.size = 0 ∧ t.mask + 1 = 2 ^ k := by
  have hpos : 0 < 2 ^ k := Nat.two_pow_pos k
  refine ⟨{ tab := some (List.replicate (2 ^ k) []), mask := 2 ^ k - 1, size := 0 },
    List.replicate (2 ^ k) [], ?_, ?_, ?_, rfl, ?_⟩
  · simp [hInit, two_pow_and_pred]
  · refine ⟨rfl, ⟨k, hk, by simp⟩, ?_, by simp, ?_⟩
    · simp only [List.length_replicate]; omega
    · intro i c hi n hn
      rw [List.getElem?_replicate] at hi
      split at hi
      · cases hi; cases hn
      · cases hi
  · simp [HTab.nodes]
  · show 2 ^ k - 1 + 1 = 2 ^ k
    omega

theorem hInsert_spec {t : HTab ι} {tab : List (List (HNode ι))} (h : t.Live tab) (node : HNode ι) :
    ∃ t' tab', hInsert t node = some t' ∧ t'.Live tab' ∧ t'.nodes.Perm (node :: t.nodes) ∧
      t'.mask = t.mask ∧ t'.size = t.size + 1 := by
  obtain ⟨c, hc, -⟩ := h.bucket node.hcode
  have hlive := h.set (t.size + 1) (node :: c) hc
    (fun x hx => by
      rcases List.mem_cons.mp hx with rfl | hx
      · rfl
      · exact h.placed _ c hc x hx)
    (by simp; omega)
  refine ⟨_, _, by simp [hInsert, h.tab_eq, hc], hlive, ?_, rfl, rfl⟩
  obtain ⟨rest, h₁, h₂⟩ := flatten_set hc
  rw [hlive.nodes_eq, h.nodes_eq]
  exact (h₂ (node :: c)).trans (h₁.symm.cons node)

/-- Where a slot points: a bucket, a node of it, and what the slot's owner table holds. -/
structure HTab.At (t : HTab ι) (slot : Nat × Nat) (node : HNode ι) : Prop where
  witness : ∃ tab chain, t.tab = some tab ∧ tab[slot.1]? = some chain ∧ chain[slot.2]? = some node

theorem HTab.At.mem {t : HTab ι} {slot : Nat × Nat} {node : HNode ι} (h : t.At slot node) :
    node ∈ t.nodes := by
  obtain ⟨tab, c, htab, hc, hn⟩ := h.witness
  simp only [HTab.nodes, htab, Option.getD_some]
  exact mem_flatten_of_getElem? hc (List.mem_of_getElem? hn)

theorem hDeref_spec {t : HTab ι} {slot : Nat × Nat} {node : HNode ι} (h : t.At slot node) :
    hDeref t slot = some node := by
  obtain ⟨tab, c, htab, hc, hn⟩ := h.witness
  simp [hDeref, htab, hc, hn]

/-- `h_lookup` finds a match if there is one, and the slot it returns points at it. -/
theorem hLookup_spec {t : HTab ι} (h : t.Ok) (hcode : Nat) (eq : ι → Bool) :
    (∃ slot node, hLookup t hcode eq = some (some slot) ∧ t.At slot node ∧
      node.hcode = hcode ∧ eq node.owner = true) ∨
    (hLookup t hcode eq = some none ∧ ∀ n ∈ t.nodes, n.hcode = hcode → eq n.owner = false) := by
  rcases h with rfl | ⟨tab, h⟩
  · exact .inr ⟨rfl, fun n hn => by cases hn⟩
  · obtain ⟨c, hc, hall⟩ := h.bucket hcode
    have hrun : hLookup t hcode eq = some ((c.findIdx? fun cur => cur.hcode == hcode &&
        eq cur.owner).map fun j => (hcode &&& t.mask, j)) := by
      simp [hLookup, h.tab_eq, hc]
    rcases hf : c.findIdx? (fun cur => cur.hcode == hcode && eq cur.owner) with _ | j
    · refine .inr ⟨by rw [hrun, hf]; rfl, fun n hn hx => ?_⟩
      have := List.findIdx?_eq_none_iff.mp hf n (hall n hn hx)
      simpa [hx] using this
    · obtain ⟨hj, hp, -⟩ := List.findIdx?_eq_some_iff_getElem.mp hf
      simp only [Bool.and_eq_true, beq_iff_eq] at hp
      exact .inl ⟨(hcode &&& t.mask, j), _, by rw [hrun, hf]; rfl,
        ⟨tab, c, h.tab_eq, hc, List.getElem?_eq_getElem hj⟩, hp.1, hp.2⟩

/-- `h_detach` takes out exactly the node the slot points at; a bucket that was empty stays so.
-/
theorem hDetach_spec {t : HTab ι} (h : t.Ok) {slot : Nat × Nat} {node : HNode ι}
    (hat : t.At slot node) :
    ∃ t' tab tab', hDetach t slot = some (t', node) ∧ t.tab = some tab ∧ t'.Live tab' ∧
      t.nodes.Perm (node :: t'.nodes) ∧ t'.mask = t.mask ∧ t.size = t'.size + 1 ∧
      ∀ (i : Nat) (c : List (HNode ι)), tab'[i]? = some c →
        ∃ d, tab[i]? = some d ∧ (d = [] → c = []) := by
  obtain ⟨tab, c, htab, hc, hn⟩ := hat.witness
  have hl := h.live htab
  have hperm := eraseIdx_perm hn
  have hpos : 0 < t.size := by
    rw [hl.size_eq]
    exact List.length_pos_of_mem (mem_flatten_of_getElem? hc (List.mem_of_getElem? hn))
  have hlen := hperm.length_eq
  rw [List.length_cons] at hlen
  have hlive := hl.set (t.size - 1) (c.eraseIdx slot.2) hc
    (fun x hx => hl.placed _ c hc x (List.mem_of_mem_eraseIdx hx)) (by omega)
  refine ⟨_, tab, _, by simp [hDetach, htab, hc, hn], htab, hlive, ?_, rfl, ?_, ?_⟩
  · obtain ⟨rest, h₁, h₂⟩ := flatten_set hc
    rw [hlive.nodes_eq, hl.nodes_eq]
    calc tab.flatten.Perm (c ++ rest) := h₁
      _ |>.Perm (node :: (c.eraseIdx slot.2 ++ rest)) := by simpa using hperm.append_right rest
      _ |>.Perm (node :: _) := (h₂ _).symm.cons node
  · show t.size = t.size - 1 + 1
    omega
  · intro i d hi
    rw [List.getElem?_set] at hi
    split at hi
    · rename_i hij
      subst hij
      split at hi
      · cases hi
        refine ⟨c, hc, ?_⟩
        rintro rfl
        rfl
      · cases hi
    · exact ⟨d, hi, id⟩

/-! ## 3. Migration

The loop has two counters that bound it, the work and the position, and a third that ends it
early, the size of `older`. What it keeps is said relative to the map that it began with, so
that the specification of the whole call is read off at its end.
-/

/-- With a node left in `older`, the scan position is inside the table: otherwise all buckets
would be below it, and empty. -/
theorem HMap.Ok.migratePos_lt {h : HMap ι} (hok : h.Ok) (hpos : 0 < h.older.size) :
    ∃ tab c, h.older.tab = some tab ∧ tab[h.migratePos]? = some c ∧
      h.migratePos < h.older.mask + 1 := by
  rcases hok.older with hnull | ⟨tab, hl⟩
  · rw [hnull] at hpos; exact absurd hpos (Nat.lt_irrefl 0)
  · have hlt : h.migratePos < tab.length := by
      by_contra hge
      have hempty : tab.flatten = [] := flatten_eq_nil_of_empty fun i c hi => by
        have := (List.getElem?_eq_some_iff.mp hi).1
        exact hok.swept tab hl.tab_eq i c (by omega) hi
      rw [hl.size_eq, hempty] at hpos
      exact absurd hpos (Nat.lt_irrefl 0)
    exact ⟨tab, tab[h.migratePos], hl.tab_eq, List.getElem?_eq_getElem hlt, by
      rw [hl.mask_eq]; exact hlt⟩

theorem HMap.Ok.newer_live {h : HMap ι} (hok : h.Ok) (hpos : 0 < h.older.size) :
    ∃ tab, h.newer.Live tab := by
  rcases hok.newer with hnull | hl
  · rw [hok.first (by rw [hnull])] at hpos
    exact absurd hpos (Nat.lt_irrefl 0)
  · exact hl

/-- What the migration loop keeps, from the map `h₀` it started on: the invariant, the bag, and
that as many nodes have moved as the counter says. -/
structure Migrating (h₀ : HMap ι) (s : HMap ι × Nat) : Prop where
  ok : s.1.Ok
  nodes : s.1.nodes.Perm h₀.nodes
  work : s.2 ≤ kRehashingWork
  older_size : s.1.older.size + s.2 = h₀.older.size
  newer_size : s.1.newer.size = h₀.newer.size + s.2
  newer_mask : s.1.newer.mask = h₀.newer.mask
  older_mask : s.1.older.mask = h₀.older.mask
  newer_tab : s.1.newer.tab.isSome = h₀.newer.tab.isSome

/-- The turns left: units of work not used up, and slots not scanned. -/
def migrationLeft (s : HMap ι × Nat) : Nat :=
  (kRehashingWork - s.2) + (s.1.older.mask + 1 - s.1.migratePos)

/-- One node goes from `older` to the front of its chain in `newer`. -/
structure Carried (h : HMap ι) (node : HNode ι) (h' : HMap ι) : Prop where
  ok : h'.Ok
  older_nodes : h.older.nodes.Perm (node :: h'.older.nodes)
  newer_nodes : h'.newer.nodes.Perm (node :: h.newer.nodes)
  older_size : h.older.size = h'.older.size + 1
  newer_size : h'.newer.size = h.newer.size + 1
  newer_mask : h'.newer.mask = h.newer.mask
  older_mask : h'.older.mask = h.older.mask
  newer_tab : h'.newer.tab.isSome = h.newer.tab.isSome
  pos : h'.migratePos = h.migratePos

theorem Carried.nodes {h h' : HMap ι} {node : HNode ι} (hc : Carried h node h') :
    h'.nodes.Perm h.nodes :=
  calc h'.nodes.Perm (node :: h.newer.nodes ++ h'.older.nodes) := hc.newer_nodes.append_right _
    _ |>.Perm (h.newer.nodes ++ node :: h'.older.nodes) := List.perm_middle.symm
    _ |>.Perm h.nodes := hc.older_nodes.symm.append_left _

theorem HMap.Ok.skip {h : HMap ι} (hok : h.Ok) {tab : List (List (HNode ι))}
    (htab : h.older.tab = some tab) (hc : tab[h.migratePos]? = some []) :
    HMap.Ok { h with migratePos := h.migratePos + 1 } := by
  refine { hok with swept := ?_ }
  intro tab' htab' i d hi hd
  rcases Nat.lt_succ_iff_lt_or_eq.mp hi with hi | rfl
  · exact hok.swept tab' htab' i d hi hd
  · have : tab' = tab := Option.some.inj (htab'.symm.trans htab)
    subst this
    rw [hc] at hd
    cases hd
    rfl

theorem HMap.Ok.detach_older {h : HMap ι} (hok : h.Ok) {t : HTab ι}
    {tab tab' : List (List (HNode ι))} (htab : h.older.tab = some tab) (ht : t.Live tab')
    (hsub : ∀ (i : Nat) (c : List (HNode ι)), tab'[i]? = some c →
      ∃ d, tab[i]? = some d ∧ (d = [] → c = [])) : HMap.Ok { h with older := t } := by
  refine { hok with older := .inr ⟨tab', ht⟩, first := fun hn => ?_, swept := ?_ }
  · have := hok.first hn
    rw [this] at htab
    cases htab
  · intro t' ht' i c hi hc
    have : t' = tab' := Option.some.inj (ht'.symm.trans ht.tab_eq)
    subst this
    obtain ⟨d, hd, hdc⟩ := hsub i c hc
    exact hdc (hok.swept tab htab i d hi hd)

theorem HMap.Ok.with_newer {h : HMap ι} (hok : h.Ok) {t : HTab ι}
    {tab : List (List (HNode ι))} (ht : t.Live tab) : HMap.Ok { h with newer := t } :=
  { hok with
    newer := .inr ⟨tab, ht⟩
    first := fun hn => by rw [ht.tab_eq] at hn; cases hn }

/-- **What a turn of the migration loop is**: it skips an empty slot, it carries one node, or
the loop ends. -/
theorem hmHelpRehashingTurn_cases {h : HMap ι} (hok : h.Ok) (nwork : Nat) :
    (nwork < kRehashingWork ∧ h.migratePos ≤ h.older.mask ∧
      hmHelpRehashingTurn (h, nwork) =
        some (.again ({ h with migratePos := h.migratePos + 1 }, nwork)) ∧
      HMap.Ok { h with migratePos := h.migratePos + 1 }) ∨
    (∃ node h', nwork < kRehashingWork ∧
      hmHelpRehashingTurn (h, nwork) = some (.again (h', nwork + 1)) ∧ Carried h node h') ∨
    (hmHelpRehashingTurn (h, nwork) = some (.done h) ∧
      (kRehashingWork ≤ nwork ∨ h.older.size = 0)) := by
  by_cases hgo : nwork < kRehashingWork ∧ 0 < h.older.size
  · obtain ⟨tab, c, htab, hc, hlt⟩ := hok.migratePos_lt hgo.2
    cases c with
    | nil =>
      refine .inl ⟨hgo.1, Nat.le_of_lt_succ hlt, ?_, hok.skip htab hc⟩
      simp [hmHelpRehashingTurn, hgo, htab, hc]
    | cons node rest =>
      have hat : h.older.At (h.migratePos, 0) node := ⟨tab, node :: rest, htab, hc, rfl⟩
      obtain ⟨o', otab, otab', hdet, hotab, hol, hoperm, homask, hosize, hosub⟩ :=
        hDetach_spec hok.older hat
      obtain ⟨ntab, hnl⟩ := hok.newer_live hgo.2
      obtain ⟨n', ntab', hins, hnl', hnperm, hnmask, hnsize⟩ := hInsert_spec hnl node
      refine .inr (.inl ⟨node, { h with newer := n', older := o' }, hgo.1, ?_,
        ⟨(hok.detach_older hotab hol hosub).with_newer hnl', hoperm, hnperm, hosize, hnsize,
          hnmask, homask, ?_, rfl⟩⟩)
      · simp [hmHelpRehashingTurn, hgo, htab, hc, hdet, hins]
      · rw [hnl'.tab_eq, hnl.tab_eq]
        rfl
  · refine .inr (.inr ⟨by simp [hmHelpRehashingTurn, hgo], ?_⟩)
    omega

theorem hmHelpRehashingTurn_spec {h₀ : HMap ι} {s : HMap ι × Nat} (hs : Migrating h₀ s) :
    (∃ s', hmHelpRehashingTurn s = some (.again s') ∧ Migrating h₀ s' ∧
      migrationLeft s' < migrationLeft s) ∨
    (hmHelpRehashingTurn s = some (.done s.1) ∧ (s.2 = kRehashingWork ∨ s.1.older.size = 0)) := by
  obtain ⟨h, nwork⟩ := s
  have hosize := hs.older_size
  have hnsize := hs.newer_size
  have hwork := hs.work
  simp only at hosize hnsize hwork
  have hok₀ : h.Ok := hs.ok
  rcases hmHelpRehashingTurn_cases hok₀ nwork with
    ⟨-, hpos, hturn, hok⟩ | ⟨node, h', hlt, hturn, hc⟩ | ⟨hturn, hend⟩
  · refine .inl ⟨_, hturn, { hs with ok := hok }, ?_⟩
    simp only [migrationLeft]
    omega
  · have hosize' := hc.older_size
    have hnsize' := hc.newer_size
    refine .inl ⟨_, hturn, ⟨hc.ok, hc.nodes.trans hs.nodes, hlt, ?_, ?_,
      hc.newer_mask.trans hs.newer_mask, hc.older_mask.trans hs.older_mask,
      hc.newer_tab.trans hs.newer_tab⟩, ?_⟩
    · show h'.older.size + (nwork + 1) = _
      omega
    · show h'.newer.size = _
      omega
    · simp only [migrationLeft, hc.older_mask, hc.pos]
      omega
  · refine .inr ⟨hturn, ?_⟩
    show nwork = kRehashingWork ∨ h.older.size = 0
    omega

/-- What a call of `hm_help_rehashing` does: the bag is the same, `min 128 older.size` nodes
have moved, and a table that became empty is gone. -/
structure Helped (h h' : HMap ι) : Prop where
  ok : h'.Ok
  nodes : h'.nodes.Perm h.nodes
  older_size : h'.older.size = h.older.size - kRehashingWork
  newer_size : h'.newer.size = h.newer.size + min kRehashingWork h.older.size
  newer_mask : h'.newer.mask = h.newer.mask
  newer_tab : h'.newer.tab.isSome = h.newer.tab.isSome
  older_null : h'.older.size = 0 → h'.older = {}
  older_mask : h'.older.size ≠ 0 → h'.older.mask = h.older.mask

theorem hmHelpRehashing_spec {h : HMap ι} (hok : h.Ok) :
    ∃ h', hmHelpRehashing h = some h' ∧ Helped h h' := by
  have hstart : Migrating h (h, 0) :=
    ⟨hok, .refl _, Nat.zero_le _, rfl, rfl, rfl, rfl, rfl⟩
  obtain ⟨h₁, hloop, nwork, hm, hend⟩ := loop_total hmHelpRehashingTurn
    (Migrating h) migrationLeft
    (fun h₁ => ∃ nwork, Migrating h (h₁, nwork) ∧
      (nwork = kRehashingWork ∨ h₁.older.size = 0))
    (fun s hs => by
      rcases hmHelpRehashingTurn_spec hs with hagain | ⟨hdone, hend⟩
      · exact .inl hagain
      · exact .inr ⟨s.1, hdone, s.2, hs, hend⟩)
    (h.older.mask + 1 + kRehashingWork + 1) (h, 0) hstart
    (by simp only [migrationLeft]; omega)
  have hsz := hm.older_size
  have hnsz := hm.newer_size
  have hwork := hm.work
  simp only at hsz hnsz hwork
  have hmoved : nwork = min kRehashingWork h.older.size := by omega
  by_cases hnull : h₁.older.size = 0
  · refine ⟨{ h₁ with older := {} }, ?_, ?_⟩
    · by_cases htab : h₁.older.tab.isSome
      · simp [hmHelpRehashing, hloop, hnull, htab]
      · have : h₁.older = {} := hm.ok.older.null (by simpa using htab)
        have heq : { h₁ with older := {} } = h₁ := by rw [← this]
        simp [hmHelpRehashing, hloop, htab, heq]
    · have hnil : h₁.older.nodes = [] := by
        rw [← List.length_eq_zero_iff, ← hm.ok.older.size_nodes, hnull]
      have hnodes : h₁.nodes = h₁.newer.nodes := by rw [HMap.nodes, hnil, List.append_nil]
      refine ⟨⟨hm.ok.newer, .inl rfl, fun _ => rfl, fun _ ht => by cases ht⟩, ?_, ?_, ?_,
        hm.newer_mask, hm.newer_tab, fun _ => rfl, fun hne => absurd rfl hne⟩
      · show (h₁.newer.nodes ++ []).Perm h.nodes
        rw [List.append_nil, ← hnodes]
        exact hm.nodes
      · show 0 = _
        omega
      · show h₁.newer.size = _
        omega
  · refine ⟨h₁, by simp [hmHelpRehashing, hloop, hnull], hm.ok, hm.nodes, by omega, by omega,
      hm.newer_mask, hm.newer_tab, fun h0 => absurd h0 hnull, fun _ => hm.older_mask⟩

/-! ## 4. The map's operations, on the bag

Each operation is its share of the migration and something in one of the two tables. The share
leaves the bag alone, so what an operation does to the bag is what it does in its table.
-/

def HMap.Misses (h : HMap ι) (hcode : Nat) (eq : ι → Bool) : Prop :=
  ∀ n ∈ h.nodes, n.hcode = hcode → eq n.owner = false

theorem HMap.Misses.of_perm {h h' : HMap ι} {hcode : Nat} {eq : ι → Bool}
    (hm : h.Misses hcode eq) (hp : h'.nodes.Perm h.nodes) : h'.Misses hcode eq :=
  fun n hn => hm n (hp.mem_iff.mp hn)

/-- The two calls of `h_lookup` in `hm_lookup` and `hm_delete`: a slot of `newer`, a slot of
`older`, or a miss in both. -/
theorem hLookup_both {h : HMap ι} (hok : h.Ok) (hcode : Nat) (eq : ι → Bool) :
    (∃ slot node, hLookup h.newer hcode eq = some (some slot) ∧ h.newer.At slot node ∧
      node.hcode = hcode ∧ eq node.owner = true) ∨
    (∃ slot node, hLookup h.newer hcode eq = some none ∧
      hLookup h.older hcode eq = some (some slot) ∧ h.older.At slot node ∧
      node.hcode = hcode ∧ eq node.owner = true) ∨
    (hLookup h.newer hcode eq = some none ∧ hLookup h.older hcode eq = some none ∧
      h.Misses hcode eq) := by
  rcases hLookup_spec hok.newer hcode eq with hit | ⟨hn, hnone⟩
  · exact .inl hit
  · rcases hLookup_spec hok.older hcode eq with ⟨slot, node, hit⟩ | ⟨ho, hnone'⟩
    · exact .inr (.inl ⟨slot, node, hn, hit⟩)
    · refine .inr (.inr ⟨hn, ho, fun n hmem => ?_⟩)
      rcases List.mem_append.mp hmem with hmem | hmem
      · exact hnone n hmem
      · exact hnone' n hmem

theorem hmLookup_spec {h : HMap ι} (hok : h.Ok) (hcode : Nat) (eq : ι → Bool) :
    ∃ h', Helped h h' ∧
      ((∃ n ∈ h.nodes, hmLookup h hcode eq = some (h', some n.owner) ∧ n.hcode = hcode ∧
          eq n.owner = true) ∨
        (hmLookup h hcode eq = some (h', none) ∧ h.Misses hcode eq)) := by
  obtain ⟨h', hhelp, hh⟩ := hmHelpRehashing_spec hok
  refine ⟨h', hh, ?_⟩
  rcases hLookup_both hh.ok hcode eq with ⟨slot, n, hlk, hat, hx, he⟩ |
    ⟨slot, n, hlk, hlk', hat, hx, he⟩ | ⟨hlk, hlk', hmiss⟩
  · refine .inl ⟨n, hh.nodes.mem_iff.mp (List.mem_append_left _ hat.mem), ?_, hx, he⟩
    simp [hmLookup, hhelp, hlk, hDeref_spec hat]
  · refine .inl ⟨n, hh.nodes.mem_iff.mp (List.mem_append_right _ hat.mem), ?_, hx, he⟩
    simp [hmLookup, hhelp, hlk, hlk', hDeref_spec hat]
  · exact .inr ⟨by simp [hmLookup, hhelp, hlk, hlk'], hmiss.of_perm hh.nodes.symm⟩

structure Removed (h : HMap ι) (n : HNode ι) (h' : HMap ι) : Prop where
  ok : h'.Ok
  nodes : h.nodes.Perm (n :: h'.nodes)
  newer_mask : h'.newer.mask = h.newer.mask
  newer_size : h'.newer.size ≤ h.newer.size
  older_size : h'.older.size ≤ h.older.size
  newer_tab : h'.newer.tab.isSome = h.newer.tab.isSome
  older_tab : h'.older.tab.isSome = h.older.tab.isSome

theorem hmDelete_helped {h : HMap ι} (hok : h.Ok) (hcode : Nat) (eq : ι → Bool) :
    ∃ h₁, Helped h h₁ ∧
      ((∃ h' n, hmDelete h hcode eq = some (h', some n.owner) ∧ n.hcode = hcode ∧
          eq n.owner = true ∧ Removed h₁ n h') ∨
        (hmDelete h hcode eq = some (h₁, none) ∧ h₁.Misses hcode eq)) := by
  obtain ⟨h₁, hhelp, hh⟩ := hmHelpRehashing_spec hok
  refine ⟨h₁, hh, ?_⟩
  rcases hLookup_both hh.ok hcode eq with ⟨slot, n, hlk, hat, hx, he⟩ |
    ⟨slot, n, hlk, hlk', hat, hx, he⟩ | ⟨hlk, hlk', hmiss⟩
  · obtain ⟨t, tab, tab', hdet, htab, hl, hperm, hmask, hsize, -⟩ := hDetach_spec hh.ok.newer hat
    refine .inl ⟨{ h₁ with newer := t }, n, by simp [hmDelete, hhelp, hlk, hdet], hx, he,
      ⟨hh.ok.with_newer hl, hperm.append_right h₁.older.nodes, hmask, ?_, Nat.le_refl _, ?_, rfl⟩⟩
    · rw [hsize]
      exact Nat.le_succ _
    · rw [hl.tab_eq, htab]
      rfl
  · obtain ⟨t, tab, tab', hdet, htab, hl, hperm, -, hsize, hsub⟩ := hDetach_spec hh.ok.older hat
    refine .inl ⟨{ h₁ with older := t }, n, by simp [hmDelete, hhelp, hlk, hlk', hdet], hx, he,
      ⟨hh.ok.detach_older htab hl hsub, ?_, rfl, Nat.le_refl _, ?_, rfl, ?_⟩⟩
    · calc h₁.nodes.Perm (h₁.newer.nodes ++ n :: t.nodes) := hperm.append_left _
        _ |>.Perm (n :: (h₁.newer.nodes ++ t.nodes)) := List.perm_middle
    · rw [hsize]
      exact Nat.le_succ _
    · rw [hl.tab_eq, htab]
      rfl
  · exact .inr ⟨by simp [hmDelete, hhelp, hlk, hlk'], hmiss⟩

theorem hmDelete_spec {h : HMap ι} (hok : h.Ok) (hcode : Nat) (eq : ι → Bool) :
    (∃ h' n, hmDelete h hcode eq = some (h', some n.owner) ∧ h'.Ok ∧ n.hcode = hcode ∧
      eq n.owner = true ∧ h.nodes.Perm (n :: h'.nodes)) ∨
    (∃ h', hmDelete h hcode eq = some (h', none) ∧ h'.Ok ∧ h'.nodes.Perm h.nodes ∧
      h.Misses hcode eq) := by
  obtain ⟨h₁, hh, ⟨h', n, hdel, hx, he, hr⟩ | ⟨hdel, hmiss⟩⟩ := hmDelete_helped hok hcode eq
  · exact .inl ⟨h', n, hdel, hr.ok, hx, he, hh.nodes.symm.trans hr.nodes⟩
  · exact .inr ⟨h₁, hdel, hh.ok, hh.nodes, hmiss.of_perm hh.nodes.symm⟩

theorem hmTriggerRehashing_spec {h : HMap ι} (hok : h.Ok) {tab : List (List (HNode ι))}
    (hl : h.newer.Live tab) (hnone : h.older.tab = none) :
    ∃ h', hmTriggerRehashing h = some h' ∧ h'.Ok ∧ h'.nodes.Perm h.nodes ∧
      h'.newer.tab.isSome ∧ h'.newer.mask + 1 = 2 * (h.newer.mask + 1) ∧ h'.newer.size = 0 ∧
      h'.older = h.newer := by
  obtain ⟨k, hk, hlen⟩ := hl.pow
  obtain ⟨t, ttab, hinit, htl, htn, htsize, htmask⟩ :=
    hInit_spec (ι := ι) (k := k + 1) (by omega)
  have hsz : (h.newer.mask + 1) * 2 = 2 ^ (k + 1) := by rw [hl.mask_eq, hlen, Nat.pow_succ]
  refine ⟨{ newer := t, older := h.newer, migratePos := 0 }, ?_, ?_, ?_, ?_, ?_, htsize, rfl⟩
  · simp [hmTriggerRehashing, hnone, hsz, hinit]
  · refine ⟨.inr ⟨ttab, htl⟩, hok.newer, fun hn => ?_, fun _ _ _ _ hi => absurd hi (Nat.not_lt_zero _)⟩
    rw [htl.tab_eq] at hn
    cases hn
  · have hold : h.older.nodes = [] := by rw [hok.older.null hnone]; rfl
    simp [HMap.nodes, htn, hold]
  · rw [htl.tab_eq]
    rfl
  · show t.mask + 1 = _
    omega

/-- The map on which an insert calls `hm_help_rehashing`: the node is in `newer`, which has
become `older` if that filled it. -/
structure Pushed (h : HMap ι) (node : HNode ι) (h' : HMap ι) : Prop where
  ok : h'.Ok
  nodes : h'.nodes.Perm (node :: h.nodes)
  newer_tab : h'.newer.tab.isSome
  grown : (h'.older = h.older ∧ h'.newer.size = h.newer.size + 1 ∧
      h'.newer.mask + 1 = (if h.newer.tab.isNone then 4 else h.newer.mask + 1) ∧
      (h.older.tab = none → h'.newer.size < (h'.newer.mask + 1) * kMaxLoadFactor)) ∨
    (h.older.tab = none ∧ h.newer.tab.isSome ∧
      (h.newer.mask + 1) * kMaxLoadFactor ≤ h.newer.size + 1 ∧
      h'.newer.mask + 1 = 2 * (h.newer.mask + 1) ∧ h'.newer.size = 0 ∧
      h'.older.size = h.newer.size + 1)

theorem hmInsert_helped {h : HMap ι} (hok : h.Ok) (node : HNode ι) :
    ∃ h₁ h', hmInsert h node = some h' ∧ Pushed h node h₁ ∧ Helped h₁ h' := by
  -- the table `h_insert` works on: the old one, or the four fresh buckets
  obtain ⟨t, tab, hfresh, hl, hnodes, hsize, hmask⟩ : ∃ t tab,
      (if h.newer.tab.isNone then hInit 4 else some h.newer) = some t ∧ t.Live tab ∧
      t.nodes = h.newer.nodes ∧ t.size = h.newer.size ∧
      t.mask + 1 = if h.newer.tab.isNone then 4 else h.newer.mask + 1 := by
    rcases hok.newer with hnull | ⟨tab, hl⟩
    · obtain ⟨t, tab, hinit, hl, hn, hs, hm⟩ := hInit_spec (ι := ι) (k := 2) (Nat.le_refl 2)
      exact ⟨t, tab, by simp [hnull]; exact hinit, hl, by rw [hn, hnull]; rfl, by rw [hs, hnull],
        by rw [hm, hnull]; rfl⟩
    · exact ⟨h.newer, tab, by simp [hl.tab_eq], hl, rfl, rfl, by simp [hl.tab_eq]⟩
  obtain ⟨t', tab', hins, hl', hperm, hmask', hsize'⟩ := hInsert_spec hl node
  rw [hnodes] at hperm
  have hok₁ : HMap.Ok { h with newer := t' } := hok.with_newer hl'
  have hperm₁ : (HMap.nodes { h with newer := t' }).Perm (node :: h.nodes) :=
    hperm.append_right h.older.nodes
  by_cases hfull : h.older.tab.isNone ∧ (t'.mask + 1) * kMaxLoadFactor ≤ t'.size
  · have hnone := Option.isNone_iff_eq_none.mp hfull.1
    obtain ⟨h₂, htrig, hok₂, hperm₂, htab₂, hmask₂, hsize₂, holder₂⟩ :=
      hmTriggerRehashing_spec hok₁ hl' hnone
    obtain ⟨h₃, hhelp, hh⟩ := hmHelpRehashing_spec hok₂
    -- four fresh buckets are not filled by one node
    have hsome : h.newer.tab.isNone = false := by
      by_contra hnull
      rw [Bool.not_eq_false] at hnull
      have hzero : h.newer.size = 0 := by
        rw [hok.newer.null (Option.isNone_iff_eq_none.mp hnull)]
      rw [if_pos hnull] at hmask
      have hle := hfull.2
      rw [hmask', hmask, hsize', hsize, hzero] at hle
      exact absurd hle (by decide)
    rw [hsome] at hmask
    have hmask_eq : t'.mask = h.newer.mask := Nat.succ.inj (hmask'.symm ▸ hmask)
    refine ⟨h₂, h₃, ?_, ⟨hok₂, hperm₂.trans hperm₁, htab₂, .inr ⟨hnone, ?_, ?_, ?_, hsize₂, ?_⟩⟩, hh⟩
    · simp only [hmInsert, hfresh, hins, Option.bind_eq_bind, Option.bind_some, hfull, and_self,
        if_true, htrig, hhelp]
    · rw [← Option.not_isNone, hsome]
      rfl
    · rw [← hmask_eq, ← hsize, ← hsize']
      exact hfull.2
    · rw [hmask₂, ← hmask_eq]
    · rw [holder₂, ← hsize]
      exact hsize'
  · obtain ⟨h₃, hhelp, hh⟩ := hmHelpRehashing_spec hok₁
    refine ⟨{ h with newer := t' }, h₃, ?_, ⟨hok₁, hperm₁, ?_, .inl ⟨rfl, ?_, ?_, ?_⟩⟩, hh⟩
    · simp only [hmInsert, hfresh, hins, Option.bind_eq_bind, Option.bind_some, hfull, if_false,
        hhelp]
    · show t'.tab.isSome = true
      rw [hl'.tab_eq]
      rfl
    · show t'.size = _
      rw [hsize', hsize]
    · show t'.mask + 1 = _
      rw [hmask', hmask]
    · intro hnone
      exact Nat.lt_of_not_le fun hle => hfull ⟨Option.isNone_iff_eq_none.mpr hnone, hle⟩

theorem hmInsert_spec {h : HMap ι} (hok : h.Ok) (node : HNode ι) :
    ∃ h', hmInsert h node = some h' ∧ h'.Ok ∧ h'.nodes.Perm (node :: h.nodes) := by
  obtain ⟨h₁, h', hins, hp, hh⟩ := hmInsert_helped hok node
  exact ⟨h', hins, hh.ok, hh.nodes.trans hp.nodes⟩

/-! ## 5. Enumeration

The walk is over the slots by number. With an exact table this is the list of nodes, chain after
chain, and with a callback that never stops it is a fold over the bag.
-/

variable {α : Type}

theorem hForeachChain_true (f : α → ι → α) : ∀ (chain : List (HNode ι)) (acc : α),
    hForeachChain (fun a x => (f a x, true)) acc chain =
      ((chain.map HNode.owner).foldl f acc, true) := by
  intro chain
  induction chain with
  | nil => intro acc; rfl
  | cons n rest ih => intro acc; simp [hForeachChain, ih]

theorem hForeachSlots_true (f : α → ι → α) (tab : List (List (HNode ι))) :
    ∀ (is : List Nat) (acc : α), (∀ i ∈ is, i < tab.length) →
      hForeachSlots (fun a x => (f a x, true)) tab is acc =
        some (((is.flatMap fun i => (tab[i]?).getD []).map HNode.owner).foldl f acc, true) := by
  intro is
  induction is with
  | nil => intro acc _; rfl
  | cons i is ih =>
    intro acc hlt
    have hi : tab[i]? = some tab[i]! := by
      have := hlt i List.mem_cons_self
      simp [this]
    simp only [hForeachSlots, hi, Option.bind_eq_bind, Option.bind_some, hForeachChain_true,
      List.flatMap_cons, Option.getD_some, List.map_append, List.foldl_append]
    exact ih _ fun j hj => hlt j (List.mem_cons_of_mem _ hj)

/-- Visiting the slots in order is visiting the chains in order. -/
theorem flatMap_range_getElem? {β : Type} (tab : List (List β)) :
    (List.range tab.length).flatMap (fun i => (tab[i]?).getD []) = tab.flatten := by
  induction tab with
  | nil => rfl
  | cons c tab ih =>
    rw [List.length_cons, List.range_succ_eq_map, List.flatMap_cons, List.flatMap_map,
      List.flatten_cons, ← ih]
    rfl

theorem hForeach_spec {t : HTab ι} (h : t.Ok) (f : α → ι → α) (acc : α) :
    hForeach t (fun a x => (f a x, true)) acc =
      some ((t.nodes.map HNode.owner).foldl f acc, true) := by
  rcases h with rfl | ⟨tab, hl⟩
  · rfl
  · have hmask : t.mask ≠ 0 := by
      obtain ⟨k, hk, hlen⟩ := hl.pow
      have := hl.mask_eq
      have := Nat.pow_le_pow_right (n := 2) (by omega) hk
      omega
    have hrange : ∀ i ∈ List.range tab.length, i < tab.length := fun i hi => List.mem_range.mp hi
    simp only [hForeach, if_neg hmask, hl.tab_eq, hl.mask_eq, Option.bind_eq_bind,
      Option.bind_some, hForeachSlots_true f tab _ acc hrange, flatMap_range_getElem?,
      hl.nodes_eq]

/-- **`hm_foreach` folds the callback over the bag**, each node once. -/
theorem hmForeach_spec {h : HMap ι} (hok : h.Ok) (f : α → ι → α) (acc : α) :
    hmForeach h (fun a x => (f a x, true)) acc =
      some ((h.nodes.map HNode.owner).foldl f acc) := by
  simp [hmForeach, hForeach_spec hok.newer, hForeach_spec hok.older, HMap.nodes]

end ApexDB
