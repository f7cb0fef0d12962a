import ApexDB.Proof.HashtableRuns

/-!
# When a migration ends, and what a step of it moves

`hm_insert` looks at the load of `newer` only while `older` is null, so a table that filled up
during a migration would go on growing. That it never does is an **amortized argument**, and
`HMap.Sized` is its invariant. A migration into `n` slots starts with `4 * n` nodes; every call
moves 128 of them, and at most one node comes in per call. So `older.size + 128 * hm_size` never
rises above what it was at the start (`debt`), and long before `newer` holds `8 * n` nodes
nothing is left to move.

Calls are taken as they come: any hash codes, any comparison, the same key as often as one
likes. The last section says what `hm_help_rehashing` does to the map it finds after any such
run. Where two nodes answer to one lookup the migration may change which of them is found;
**where the callers insert only keys that are not there, as all of them do, no lookup can tell
that it took place** (`HMap.Represents.single`).
-/

set_option autoImplicit false

namespace ApexDB

open Lib

variable {ι : Type}

/-! ## 1. Calls

A caller may do anything: the comparison is an argument of each call, and so are the hash codes.
Nothing is assumed of two calls being for the same key.
-/

/-- A call of one of the three functions, with everything its caller chooses. -/
inductive HMapCall (ι : Type) where
  | insert (node : HNode ι)
  | lookup (hcode : Nat) (eq : ι → Bool)
  | delete (hcode : Nat) (eq : ι → Bool)

def hmapCall (h : HMap ι) : HMapCall ι → Option (HMap ι)
  | .insert node => hmInsert h node
  | .lookup hcode eq => (hmLookup h hcode eq).map Prod.fst
  | .delete hcode eq => (hmDelete h hcode eq).map Prod.fst

/-! ## 2. The load of the newer table

The invariant has the two cases in which the threshold is not reached: no migration is under
way, and then `hm_insert` tests the load itself; or one is, and then `newer` has had room for
more nodes than could have come in since.
-/

/-- **The invariant**: `newer` is below its threshold, and a migration is ahead of the inserts.
-/
structure HMap.Sized (h : HMap ι) : Prop where
  ok : h.Ok
  load : h.newer.size < (h.newer.mask + 1) * kMaxLoadFactor
  debt : h.older.tab.isSome →
    h.older.size + kRehashingWork * hmSize h ≤ (kRehashingWork + 1) * (4 * (h.newer.mask + 1))

theorem HMap.sized_empty : ({} : HMap ι).Sized where
  ok := HMap.ok_empty
  load := by
    show 0 < 1 * kMaxLoadFactor
    decide
  debt := fun h => by cases h

theorem HMap.Ok.four_le {h : HMap ι} (hok : h.Ok) (hsome : h.newer.tab.isSome) :
    4 ≤ h.newer.mask + 1 := by
  obtain ⟨tab, htab⟩ := Option.isSome_iff_exists.mp hsome
  have hl := hok.newer.live htab
  obtain ⟨k, hk, hlen⟩ := hl.pow
  rw [hl.mask_eq, hlen]
  exact Nat.pow_le_pow_right (n := 2) (by decide) hk

theorem HMap.Ok.older_size_eq_zero {h : HMap ι} (hok : h.Ok) (hnone : h.older.tab = none) :
    h.older.size = 0 := by
  rw [hok.older.null hnone]

theorem HMap.Ok.newer_isSome {h : HMap ι} (hok : h.Ok) (hsome : h.older.tab.isSome) :
    h.newer.tab.isSome := by
  cases hnewer : h.newer.tab with
  | some tab => rfl
  | none =>
    rw [hok.first hnewer] at hsome
    cases hsome

/-- A table that is still there after the call has more nodes than the call could move. -/
theorem Helped.older_isSome {h h' : HMap ι} (hh : Helped h h') (hok : h.Ok)
    (hsome : h'.older.tab.isSome) :
    h.older.tab.isSome ∧ h'.older.size + kRehashingWork = h.older.size := by
  have hne : h'.older.size ≠ 0 := by
    intro hzero
    rw [hh.older_null hzero] at hsome
    cases hsome
  have hsize := hh.older_size
  refine ⟨?_, by omega⟩
  by_contra hnone
  have hzero := hok.older_size_eq_zero (Option.not_isSome_iff_eq_none.mp hnone)
  omega

theorem Helped.size {h h' : HMap ι} (hh : Helped h h') : hmSize h' = hmSize h := by
  have hnewer := hh.newer_size
  have holder := hh.older_size
  unfold hmSize
  omega

/-- **The call pays for one insert.** Before it, the debt may be one node too high. Afterwards
128 nodes have moved, or there is no migration any more and the debt is settled. -/
theorem Helped.sized {h h' : HMap ι} (hh : Helped h h') (hok : h.Ok)
    (hload : h.older.tab = none → h.newer.size < (h.newer.mask + 1) * kMaxLoadFactor)
    (hdebt : h.older.tab.isSome → h.older.size + kRehashingWork * hmSize h ≤
      (kRehashingWork + 1) * (4 * (h.newer.mask + 1)) + kRehashingWork) : h'.Sized := by
  refine ⟨hh.ok, ?_, ?_⟩
  · rw [hh.newer_mask]
    cases hnone : h.older.tab with
    | none =>
      have hzero := hok.older_size_eq_zero hnone
      have hsame : h'.newer.size = h.newer.size := by
        rw [hh.newer_size, hzero, Nat.min_zero, Nat.add_zero]
      rw [hsame]
      exact hload hnone
    | some tab =>
      -- all the nodes together are fewer than the threshold
      have hsome : h.older.tab.isSome := by rw [hnone]; rfl
      have hfour := hok.four_le (hok.newer_isSome hsome)
      have hle : h'.newer.size ≤ hmSize h := by
        rw [← hh.size]
        exact Nat.le_add_right _ _
      have hbound := hdebt hsome
      simp only [kRehashingWork, kMaxLoadFactor] at hbound ⊢
      omega
  · intro hsome
    obtain ⟨hsome', hsize⟩ := hh.older_isSome hok hsome
    have hbound := hdebt hsome'
    rw [hh.size, hh.newer_mask]
    omega

theorem HMap.Sized.removed {h h' : HMap ι} {n : HNode ι} (hs : h.Sized) (hr : Removed h n h') :
    h'.Sized := by
  have hnewer := hr.newer_size
  have holder := hr.older_size
  refine ⟨hr.ok, ?_, ?_⟩
  · rw [hr.newer_mask]
    exact Nat.lt_of_le_of_lt hnewer hs.load
  · intro hsome
    rw [hr.older_tab] at hsome
    have hbound := hs.debt hsome
    rw [hr.newer_mask]
    unfold hmSize at hbound ⊢
    simp only [kRehashingWork] at hbound ⊢
    omega

/-- What an insert hands to its share of the migration: a table below the threshold, or a debt
that is one node too high. -/
theorem HMap.Sized.pushed {h h₁ : HMap ι} {node : HNode ι} (hs : h.Sized) (hp : Pushed h node h₁) :
    (h₁.older.tab = none → h₁.newer.size < (h₁.newer.mask + 1) * kMaxLoadFactor) ∧
    (h₁.older.tab.isSome → h₁.older.size + kRehashingWork * hmSize h₁ ≤
      (kRehashingWork + 1) * (4 * (h₁.newer.mask + 1)) + kRehashingWork) := by
  rcases hp.grown with ⟨holder, hsize, hmask, hload⟩ | ⟨hnone, -, hfull, hmask, hsize, holder⟩
  · rw [holder]
    refine ⟨hload, fun hsome => ?_⟩
    have hnewer := hs.ok.newer_isSome hsome
    have hbound := hs.debt hsome
    rw [← Option.not_isNone, Bool.not_eq_true'] at hnewer
    rw [hnewer] at hmask
    have hmask' : h₁.newer.mask + 1 = h.newer.mask + 1 := hmask
    rw [hmask']
    unfold hmSize at hbound ⊢
    rw [holder, hsize]
    simp only [kRehashingWork] at hbound ⊢
    omega
  · -- the table that filled up had exactly the threshold, four nodes to a slot of the new one
    have hload := hs.load
    refine ⟨fun _ => ?_, fun _ => ?_⟩
    · rw [hsize, hmask]
      simp only [kMaxLoadFactor]
      omega
    · unfold hmSize
      rw [hsize, holder, hmask]
      simp only [kRehashingWork, kMaxLoadFactor] at hload hfull ⊢
      omega

/-- **Every call keeps the invariant**, and none faults. -/
theorem HMap.Sized.call {h : HMap ι} (hs : h.Sized) (c : HMapCall ι) :
    ∃ h', hmapCall h c = some h' ∧ h'.Sized := by
  have hslack : h.older.tab.isSome → h.older.size + kRehashingWork * hmSize h ≤
      (kRehashingWork + 1) * (4 * (h.newer.mask + 1)) + kRehashingWork :=
    fun hsome => Nat.le_trans (hs.debt hsome) (Nat.le_add_right _ _)
  cases c with
  | insert node =>
    obtain ⟨h₁, h', hins, hp, hh⟩ := hmInsert_helped hs.ok node
    obtain ⟨hload, hdebt⟩ := hs.pushed hp
    exact ⟨h', hins, hh.sized hp.ok hload hdebt⟩
  | lookup hcode eq =>
    obtain ⟨h', hh, ⟨n, -, hrun, -⟩ | ⟨hrun, -⟩⟩ := hmLookup_spec hs.ok hcode eq
    · exact ⟨h', by rw [hmapCall, hrun]; rfl, hh.sized hs.ok (fun _ => hs.load) hslack⟩
    · exact ⟨h', by rw [hmapCall, hrun]; rfl, hh.sized hs.ok (fun _ => hs.load) hslack⟩
  | delete hcode eq =>
    obtain ⟨h₁, hh, hcases⟩ := hmDelete_helped hs.ok hcode eq
    have hs₁ : h₁.Sized := hh.sized hs.ok (fun _ => hs.load) hslack
    rcases hcases with ⟨h', n, hrun, -, -, hr⟩ | ⟨hrun, -⟩
    · exact ⟨h', by rw [hmapCall, hrun]; rfl, hs₁.removed hr⟩
    · exact ⟨h₁, by rw [hmapCall, hrun]; rfl, hs₁⟩

theorem HMap.sized_calls (calls : List (HMapCall ι)) :
    ∃ h, calls.foldlM hmapCall {} = some h ∧ h.Sized :=
  foldlM_inv HMap.Sized (fun _ => True) (fun _ c _ hs => hs.call c) calls {} (fun _ _ => trivial)
    HMap.sized_empty

/-- A migration under way keeps `newer` away from its threshold. -/
theorem HMap.Sized.older_eq_none {h : HMap ι} (hs : h.Sized)
    (hfull : kMaxLoadFactor * (h.newer.mask + 1) ≤ h.newer.size + 1) : h.older.tab = none := by
  by_contra hne
  have hsome : h.older.tab.isSome := Option.isSome_iff_ne_none.mpr hne
  have hfour := hs.ok.four_le (hs.ok.newer_isSome hsome)
  have hbound := hs.debt hsome
  unfold hmSize at hbound
  simp only [kRehashingWork, kMaxLoadFactor] at hbound hfull
  omega

/-- **A due resize is never skipped.** After any calls `newer` has a power of two of slots, at
least four, and fewer than eight nodes to a slot. And an insert that brings it to eight finds no
migration under way, so the table doubles in that insert. -/
theorem resize_not_skipped (calls : List (HMapCall ι)) :
    ∃ h : HMap ι, calls.foldlM hmapCall {} = some h ∧
      (∀ tab, h.newer.tab = some tab → ∃ k, 2 ≤ k ∧ tab.length = 2 ^ k ∧
        h.newer.mask + 1 = 2 ^ k ∧ h.newer.size < kMaxLoadFactor * 2 ^ k) ∧
      ∀ node, kMaxLoadFactor * (h.newer.mask + 1) ≤ h.newer.size + 1 →
        h.older.tab = none ∧
        ∃ h', hmInsert h node = some h' ∧ h'.newer.mask + 1 = 2 * (h.newer.mask + 1) := by
  obtain ⟨h, hrun, hs⟩ := HMap.sized_calls calls
  refine ⟨h, hrun, ?_, ?_⟩
  · intro tab htab
    have hl := hs.ok.newer.live htab
    obtain ⟨k, hk, hlen⟩ := hl.pow
    have hmask := hl.mask_eq
    have hload := hs.load
    rw [hlen] at hmask
    rw [hmask, Nat.mul_comm] at hload
    exact ⟨k, hk, hlen, hmask, hload⟩
  · intro node hfull
    have hnone := hs.older_eq_none hfull
    refine ⟨hnone, ?_⟩
    obtain ⟨h₁, h', hins, hp, hh⟩ := hmInsert_helped hs.ok node
    refine ⟨h', hins, ?_⟩
    rw [hh.newer_mask]
    rcases hp.grown with ⟨-, hsize, hmask, hload⟩ | ⟨-, -, -, hmask, -⟩
    · -- the node went in without a resize, so the table was not full
      have hlt := hload hnone
      rw [hsize, hmask] at hlt
      simp only [kMaxLoadFactor] at hlt hfull
      split at hlt
      · rename_i hnull
        have hempty := hs.ok.newer.null (Option.isNone_iff_eq_none.mp hnull)
        rw [hempty] at hfull
        change 8 * (0 + 1) ≤ 0 + 1 at hfull
        omega
      · omega
    · exact hmask

/-! ## 3. One share of the migration

A share of the migration takes nodes from one table to the other, so it can change which of two
equal nodes is met first. What is proved about a lookup is therefore in three parts: that it
finds something exactly if it did before; that it finds the same where only one node answers;
and that only one node answers in every map that its users have built.
-/

/-- What a lookup finds in the map as it stands: the two calls of `h_lookup` in `hm_lookup`,
after its share of the migration. -/
def hmFind (h : HMap ι) (hcode : Nat) (eq : ι → Bool) : Option (Option ι) := do
  match ← hLookup h.newer hcode eq with
  | some slot => return some (← hDeref h.newer slot).owner
  | none =>
    match ← hLookup h.older hcode eq with
    | some slot => return some (← hDeref h.older slot).owner
    | none => return none

theorem hmLookup_eq (h : HMap ι) (hcode : Nat) (eq : ι → Bool) :
    hmLookup h hcode eq =
      (hmHelpRehashing h).bind fun h' => (hmFind h' hcode eq).map fun r => (h', r) := by
  unfold hmLookup hmFind
  cases hmHelpRehashing h with
  | none => rfl
  | some h' =>
    simp only [Option.bind_eq_bind, Option.bind_some]
    cases hLookup h'.newer hcode eq with
    | none => rfl
    | some r =>
      cases r with
      | some slot => simp only [Option.bind_some]; cases hDeref h'.newer slot <;> rfl
      | none =>
        simp only [Option.bind_some]
        cases hLookup h'.older hcode eq with
        | none => rfl
        | some r =>
          cases r with
          | some slot => simp only [Option.bind_some]; cases hDeref h'.older slot <;> rfl
          | none => rfl

theorem hmFind_spec {h : HMap ι} (hok : h.Ok) (hcode : Nat) (eq : ι → Bool) :
    (∃ n ∈ h.nodes, hmFind h hcode eq = some (some n.owner) ∧ n.hcode = hcode ∧
      eq n.owner = true) ∨
    (hmFind h hcode eq = some none ∧ h.Misses hcode eq) := by
  rcases hLookup_both hok hcode eq with ⟨slot, n, hlk, hat, hx, he⟩ |
    ⟨slot, n, hlk, hlk', hat, hx, he⟩ | ⟨hlk, hlk', hmiss⟩
  · refine .inl ⟨n, List.mem_append_left _ hat.mem, ?_, hx, he⟩
    simp [hmFind, hlk, hDeref_spec hat]
  · refine .inl ⟨n, List.mem_append_right _ hat.mem, ?_, hx, he⟩
    simp [hmFind, hlk, hlk', hDeref_spec hat]
  · exact .inr ⟨by simp [hmFind, hlk, hlk'], hmiss⟩

theorem hmFind_eq_none {h : HMap ι} (hok : h.Ok) {hcode : Nat} {eq : ι → Bool} :
    hmFind h hcode eq = some none ↔ h.Misses hcode eq := by
  rcases hmFind_spec hok hcode eq with ⟨n, hn, hfind, hx, he⟩ | ⟨hfind, hmiss⟩
  · rw [hfind]
    refine ⟨fun hsome => (by cases hsome), fun hmiss => ?_⟩
    have hfalse := hmiss n hn hx
    rw [he] at hfalse
    cases hfalse
  · exact ⟨fun _ => hmiss, fun _ => hfind⟩

def HMap.Single (h : HMap ι) (hcode : Nat) (eq : ι → Bool) : Prop :=
  ∀ n ∈ h.nodes, ∀ n' ∈ h.nodes, n.hcode = hcode → n'.hcode = hcode → eq n.owner = true →
    eq n'.owner = true → n = n'

/-- **Maps with the same nodes find the same**, where at most one node answers. In which table
it is, and at which place of its chain, does not matter then. -/
theorem hmFind_congr {h h' : HMap ι} (hok : h.Ok) (hok' : h'.Ok) (hp : h'.nodes.Perm h.nodes)
    {hcode : Nat} {eq : ι → Bool} (hsingle : h.Single hcode eq) :
    hmFind h' hcode eq = hmFind h hcode eq := by
  rcases hmFind_spec hok hcode eq with ⟨n, hn, hfind, hx, he⟩ | ⟨hfind, hmiss⟩
  · rcases hmFind_spec hok' hcode eq with ⟨n', hn', hfind', hx', he'⟩ | ⟨-, hmiss'⟩
    · rw [hfind, hfind', hsingle n hn n' (hp.mem_iff.mp hn') hx hx' he he']
    · have hfalse := hmiss' n (hp.mem_iff.mpr hn) hx
      rw [he] at hfalse
      cases hfalse
  · rcases hmFind_spec hok' hcode eq with ⟨n', hn', -, hx', he'⟩ | ⟨hfind', -⟩
    · have hfalse := hmiss n' (hp.mem_iff.mp hn') hx'
      rw [he'] at hfalse
      cases hfalse
    · rw [hfind, hfind']

theorem HMap.Single.of_perm {h h' : HMap ι} {hcode : Nat} {eq : ι → Bool} (hs : h.Single hcode eq)
    (hp : h'.nodes.Perm h.nodes) : h'.Single hcode eq :=
  fun n hn n' hn' => hs n (hp.mem_iff.mp hn) n' (hp.mem_iff.mp hn')

/-- `hm_lookup` returns what there was to find before its share of the migration. -/
theorem hmLookup_result {h : HMap ι} (hok : h.Ok) {hcode : Nat} {eq : ι → Bool}
    (hsingle : h.Single hcode eq) :
    (hmLookup h hcode eq).map Prod.snd = hmFind h hcode eq := by
  obtain ⟨h', hhelp, hh⟩ := hmHelpRehashing_spec hok
  rw [hmLookup_eq, hhelp, Option.bind_some, Option.map_map,
    ← hmFind_congr hok hh.ok hh.nodes hsingle]
  exact Option.map_id'

section Keyed

variable {K : Type} [DecidableEq K] {key : ι → K} {hash : K → Nat}

/-- In a map that stands for a finite map at most one node answers to a key. -/
theorem HMap.Represents.single {h : HMap ι} {m : K → Option ι} (hr : h.Represents key hash m) (k : K) :
    h.Single (hash k) fun x => key x == k := by
  intro n hn n' hn' _ _ he he'
  refine List.inj_on_of_nodup_map hr.nodup hn hn' ?_
  rw [eq_of_beq he, eq_of_beq he']

def HMapOp.call (key : ι → K) (hash : K → Nat) : HMapOp K ι → HMapCall ι
  | .insert node => .insert { hcode := hash (key node), owner := node }
  | .lookup k => .lookup (hash k) fun x => key x == k
  | .delete k => .delete (hash k) fun x => key x == k

theorem hmapCall_of_step {h h' : HMap ι} {op : HMapOp K ι} {o : Option ι}
    (hstep : hmapStep key hash h op = some (h', o)) : hmapCall h (op.call key hash) = some h' := by
  cases op with
  | insert node =>
    obtain ⟨h₁, hins, hlast⟩ := Option.bind_eq_some_iff.mp hstep
    cases hlast
    exact hins
  | lookup k => exact Option.map_eq_some_iff.mpr ⟨_, hstep, rfl⟩
  | delete k => exact Option.map_eq_some_iff.mpr ⟨_, hstep, rfl⟩

theorem hmapCalls_of_run : ∀ {ops : List (HMapOp K ι)} {h h' : HMap ι} {outs : List (Option ι)},
    run (hmapStep key hash) h ops = some (h', outs) →
      (ops.map (HMapOp.call key hash)).foldlM hmapCall h = some h' := by
  intro ops
  induction ops with
  | nil =>
    intro h h' outs hrun
    cases hrun
    rfl
  | cons op ops ih =>
    intro h h' outs hrun
    obtain ⟨⟨h₁, o⟩, hstep, hrun⟩ := Option.bind_eq_some_iff.mp hrun
    obtain ⟨⟨h₂, os⟩, hrest, hlast⟩ := Option.bind_eq_some_iff.mp hrun
    cases hlast
    rw [List.map_cons, List.foldlM_cons, hmapCall_of_step hstep]
    exact ih hrest

/-- **Inserts of keys that are not there leave at most one node to a key.** -/
theorem single_of_legal {ops : List (HMapOp K ι)} (hlegal : (finiteMap key).Legal (fun _ => none) ops) {h : HMap ι}
    (hrun : (ops.map (HMapOp.call key hash)).foldlM hmapCall {} = some h) (k : K) :
    h.Single (hash k) fun x => key x == k := by
  obtain ⟨h', outs, hrun', -, hr⟩ := (finiteMap key).run_refines (R := HMap.Represents key hash)
    (fun s t e hR hp => hmapStep_refines hR e hp) ops {} _ HMap.represents_empty hlegal
  rw [hmapCalls_of_run hrun'] at hrun
  cases hrun
  exact hr.single k

end Keyed

/-- `moved` is what the loop has carried over since the map `h₀`. -/
structure CarriedAll (h₀ : HMap ι) (moved : List (HNode ι)) (h : HMap ι) : Prop where
  ok : h.Ok
  older : h₀.older.nodes.Perm (moved ++ h.older.nodes)
  newer : h.newer.nodes.Perm (moved ++ h₀.newer.nodes)

theorem CarriedAll.carried {h₀ h h' : HMap ι} {moved : List (HNode ι)} {node : HNode ι}
    (hm : CarriedAll h₀ moved h) (hc : Carried h node h') : CarriedAll h₀ (node :: moved) h' where
  ok := hc.ok
  older :=
    calc h₀.older.nodes.Perm (moved ++ h.older.nodes) := hm.older
      _ |>.Perm (moved ++ node :: h'.older.nodes) := hc.older_nodes.append_left _
      _ |>.Perm (node :: moved ++ h'.older.nodes) := List.perm_middle
  newer := hc.newer_nodes.trans (hm.newer.cons node)

/-- A turn of the loop carries one node over, or none. -/
theorem CarriedAll.again {h₀ : HMap ι} {s s' : HMap ι × Nat} {moved : List (HNode ι)} (hm : CarriedAll h₀ moved s.1)
    (hturn : hmHelpRehashingTurn s = some (.again s')) : ∃ moved', CarriedAll h₀ moved' s'.1 := by
  rcases hmHelpRehashingTurn_cases hm.ok s.2 with
    ⟨-, -, hturn', hok'⟩ | ⟨node, g', -, hturn', hc⟩ | ⟨hturn', -⟩
  · rw [hturn'] at hturn
    cases hturn
    exact ⟨moved, hok', hm.older, hm.newer⟩
  · rw [hturn'] at hturn
    cases hturn
    exact ⟨node :: moved, hm.carried hc⟩
  · rw [hturn'] at hturn
    cases hturn

theorem CarriedAll.done {h₀ h : HMap ι} {s : HMap ι × Nat} {moved : List (HNode ι)} (hm : CarriedAll h₀ moved s.1)
    (hturn : hmHelpRehashingTurn s = some (.done h)) : CarriedAll h₀ moved h := by
  rcases hmHelpRehashingTurn_cases hm.ok s.2 with
    ⟨-, -, hturn', -⟩ | ⟨node, g', -, hturn', -⟩ | ⟨hturn', -⟩
  · rw [hturn'] at hturn
    cases hturn
  · rw [hturn'] at hturn
    cases hturn
  · rw [hturn'] at hturn
    cases hturn
    exact hm

/-- **The nodes a call moves**, taken out of `older` and put into `newer`. -/
theorem Helped.moved {h h' : HMap ι} (hok : h.Ok) (hrun : hmHelpRehashing h = some h')
    (hh : Helped h h') :
    ∃ moved : List (HNode ι), moved.length = min kRehashingWork h.older.size ∧
      h.older.nodes.Perm (moved ++ h'.older.nodes) ∧
      h'.newer.nodes.Perm (moved ++ h.newer.nodes) := by
  obtain ⟨h₁, hloop, hend⟩ := Option.bind_eq_some_iff.mp hrun
  obtain ⟨moved, hm⟩ : ∃ moved, CarriedAll h moved h₁ := by
    refine loop_inv (fun s => ∃ moved, CarriedAll h moved s.1)
      (fun h₁ => ∃ moved, CarriedAll h moved h₁) ?_ ?_ ⟨[], hok, .refl _, .refl _⟩ hloop
    · rintro s s' ⟨moved, hm⟩ hturn
      exact hm.again hturn
    · rintro s b ⟨moved, hm⟩ hturn
      exact ⟨moved, hm.done hturn⟩
  -- freeing the empty table takes no node away
  have hsame : h'.newer = h₁.newer ∧ h'.older.nodes = h₁.older.nodes := by
    split at hend
    · rename_i hempty
      cases hend
      refine ⟨rfl, ?_⟩
      symm
      show h₁.older.nodes = []
      rw [← List.length_eq_zero_iff, ← hm.ok.older.size_nodes]
      exact hempty.1
    · cases hend
      exact ⟨rfl, rfl⟩
  refine ⟨moved, ?_, hsame.2 ▸ hm.older, hsame.1 ▸ hm.newer⟩
  have hlen := hm.older.length_eq
  have hsize := hh.older_size
  rw [List.length_append, ← hsame.2, ← hok.older.size_nodes, ← hh.ok.older.size_nodes] at hlen
  omega

/-- **A share of the migration is safe**, after any calls. It ends without a fault: with a node
left in `older` both tables are there, and the scan stands inside the one it reads. It takes
`min 128 older.size` nodes out of `older` and puts them into `newer`, so the nodes of the map
are the same, a lookup finds a node exactly if it found one before, and the same one if no other
answers to it; so the same one for every key, if only keys that were not there have been
inserted. A table that became empty is gone. -/
theorem help_rehashing_safe (calls : List (HMapCall ι)) :
    ∃ h h' : HMap ι, calls.foldlM hmapCall {} = some h ∧ hmHelpRehashing h = some h' ∧
      (0 < h.older.size → h.newer.tab.isSome ∧ h.migratePos ≤ h.older.mask ∧
        ∃ tab, h.older.tab = some tab ∧ tab.length = h.older.mask + 1) ∧
      (∃ moved : List (HNode ι), moved.length = min kRehashingWork h.older.size ∧
        h.older.nodes.Perm (moved ++ h'.older.nodes) ∧
        h'.newer.nodes.Perm (moved ++ h.newer.nodes)) ∧
      h'.older.size = h.older.size - min kRehashingWork h.older.size ∧
      h'.newer.size = h.newer.size + min kRehashingWork h.older.size ∧
      h'.nodes.Perm h.nodes ∧
      (∀ hcode eq, (hmFind h' hcode eq = some none ↔ hmFind h hcode eq = some none) ∧
        (h.Single hcode eq → hmFind h' hcode eq = hmFind h hcode eq ∧
          (hmLookup h' hcode eq).map Prod.snd = (hmLookup h hcode eq).map Prod.snd)) ∧
      (∀ (K : Type) [DecidableEq K] (key : ι → K) (hash : K → Nat) (ops : List (HMapOp K ι)),
        calls = ops.map (HMapOp.call key hash) → (finiteMap key).Legal (fun _ => none) ops →
        ∀ k, (hmLookup h' (hash k) fun x => key x == k).map Prod.snd =
          (hmLookup h (hash k) fun x => key x == k).map Prod.snd) ∧
      (h'.older.size = 0 → h'.older.tab = none) := by
  obtain ⟨h, hrun, hs⟩ := HMap.sized_calls calls
  obtain ⟨h', hhelp, hh⟩ := hmHelpRehashing_spec hs.ok
  have hresult : ∀ {hcode eq}, h.Single hcode eq →
      (hmLookup h' hcode eq).map Prod.snd = (hmLookup h hcode eq).map Prod.snd := by
    intro hcode eq hsingle
    rw [hmLookup_result hs.ok hsingle, hmLookup_result hh.ok (hsingle.of_perm hh.nodes),
      hmFind_congr hs.ok hh.ok hh.nodes hsingle]
  refine ⟨h, h', hrun, hhelp, ?_, hh.moved hs.ok hhelp, ?_, hh.newer_size, hh.nodes, ?_, ?_, ?_⟩
  · intro hpos
    obtain ⟨tab, c, htab, -, hlt⟩ := hs.ok.migratePos_lt hpos
    have hl := hs.ok.older.live htab
    exact ⟨hs.ok.newer_isSome (by rw [htab]; rfl), Nat.le_of_lt_succ hlt, tab, htab,
      hl.mask_eq.symm⟩
  · rw [hh.older_size]
    omega
  · intro hcode eq
    refine ⟨?_, fun hsingle => ⟨hmFind_congr hs.ok hh.ok hh.nodes hsingle, hresult hsingle⟩⟩
    rw [hmFind_eq_none hh.ok, hmFind_eq_none hs.ok]
    exact ⟨fun hm => hm.of_perm hh.nodes.symm, fun hm => hm.of_perm hh.nodes⟩
  · rintro K _ key hash ops rfl hlegal k
    exact hresult (single_of_legal hlegal hrun k)
  · intro hzero
    rw [hh.older_null hzero]

/-- 512 nodes of one hash code, four to a key: 384 of them are still in `older`. -/
def fourToAKey : List (HMapCall Nat) :=
  (List.range 512).map fun i => .insert { hcode := 0, owner := i }

/-- A node that is brought over is put in front of the others of its key, so after one more
share of the migration a lookup of the key 5 returns another node. -/
theorem help_rehashing_reorders :
    (do
      let h ← fourToAKey.foldlM hmapCall {}
      let h' ← hmHelpRehashing h
      let (_, found) ← hmLookup h 0 fun x => x % 128 == 5
      let (_, found') ← hmLookup h' 0 fun x => x % 128 == 5
      return (found, found')) = some (some 261, some 5) := by
  decide +kernel

end ApexDB
