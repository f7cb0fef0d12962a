import ApexDB.Server
import ApexDB.Proof.StoreRuns

/-!
# A command belongs to its key

Three tables name the commands: the tests of `execute`, the list in `routing_key_for_command`
and the special cases of the proxy. **They agree** (`dispatch_routed`, `dispatch_unrouted`): a
command that is routed acts on the key it is routed by or is unknown everywhere, and one that is
not routed is `ping`, `keys` or unknown.

Such a command reads and writes nothing but its key (`refCommand_local`, `refCommand_frame`), so
what it does to a map is what it does to the part of the map that one shard has
(`refCommand_slice`).
-/

set_option autoImplicit false

namespace ApexDB

variable {Z : Type}

/-! ## 1. The tables

The comparison is by names and by the number of strings. `execute` tests both at once, and
routing asks only for the name and for a second string, so a known name with the wrong number of
arguments may be routed, and the shard answers that it does not know the command.
-/

/-- The key a command acts on. -/
def Command.key? : Command → Option Bytes
  | .exists key | .type key | .persist key | .incr key | .get key | .set key _ | .del key
  | .pexpire key _ | .pttl key | .zadd key _ _ | .zrem key _ | .zscore key _
  | .zquery key _ _ _ _ => some key
  | .ping _ | .keys | .unknown => none

theorem routingKey_cons (op : Bytes) (args : List Bytes) : routingKeyForCommand (op :: args) =
    if op ∈ keyCommands ∨ op ∈ zsetCommands then args.head? else none := rfl

/-- What holds of every command that the table of `execute` can come to, holds of the one it
comes to. -/
theorem dispatch_induction {motive : Command → Prop} (op : Bytes) (args : List Bytes)
    (ping : ((op :: args).length = 1 ∨ (op :: args).length = 2) ∧ op = bytes "ping" →
      ∀ arg, motive (.ping arg))
    (keys : (op :: args).length = 1 ∧ op = bytes "keys" → motive .keys)
    (keyed : ∀ c name n, name ∈ keyCommands ∨ name ∈ zsetCommands → 2 ≤ n →
      (op :: args).length = n ∧ op = name → c.key? = some (argAt (op :: args) 1) → motive c)
    (unknown : motive .unknown) : motive (dispatch (op :: args)) := by
  unfold dispatch
  dsimp only
  repeat' refine iteInduction (fun hc => ?_) fun _ => ?_
  all_goals first
    | exact unknown
    | exact ping hc _
    | exact keys hc
    | exact keyed _ _ _ (by decide) (by decide) hc rfl

/-- **A routed command acts on the key it is routed by**, or has the wrong number of arguments.
-/
theorem dispatch_routed {cmd : List Bytes} {key : Bytes} (h : routingKeyForCommand cmd = some key) :
    (dispatch cmd).key? = some key ∨ dispatch cmd = .unknown := by
  cases cmd with
  | nil => cases h
  | cons op args =>
    rw [routingKey_cons] at h
    split at h
    · rename_i hop
      obtain ⟨args, rfl⟩ := List.head?_eq_some_iff.mp h
      refine dispatch_induction (motive := fun c => c.key? = some key ∨ c = .unknown) op (key :: args)
        (fun hc _ => ?_) (fun hc => absurd hc.1 (by simp)) (fun c _ _ _ _ _ hkey => .inl hkey) (.inr rfl)
      exact absurd (hc.2 ▸ hop) (by decide)
    · cases h

/-- **A command that is not routed** is `ping`, `keys` or unknown. -/
theorem dispatch_unrouted {cmd : List Bytes} (h : routingKeyForCommand cmd = none)
    (hping : ¬((cmd.length = 1 ∨ cmd.length = 2) ∧ cmd[0]? = some (bytes "ping")))
    (hkeys : isScatterGatherCommand cmd = false) : dispatch cmd = .unknown := by
  cases cmd with
  | nil => rfl
  | cons op args =>
    rw [routingKey_cons] at h
    refine dispatch_induction (motive := fun c => c = .unknown) op args
      (fun hc _ => absurd ⟨hc.1, congrArg some hc.2⟩ hping) (fun hc => ?_)
      (fun c name n hname hn hc _ => ?_) rfl
    · have hscatter : isScatterGatherCommand (op :: args) = true :=
        decide_eq_true ⟨hc.1, congrArg some hc.2⟩
      rw [hscatter] at hkeys
      cases hkeys
    · -- a name that is routed comes without an argument here
      rw [hc.2, if_pos hname, List.head?_eq_none_iff] at h
      have hlen := hc.1
      rw [h] at hlen
      simp only [List.length_cons, List.length_nil] at hlen
      omega

/-- **A command that acts on a key is routed by it.** So a shard that looks up the owner of the
routing key has looked up the owner of the key that is written. -/
theorem routing_of_key {cmd : List Bytes} {key : Bytes} (h : (dispatch cmd).key? = some key) :
    routingKeyForCommand cmd = some key := by
  cases cmd with
  | nil => cases h
  | cons op args =>
    revert h
    refine dispatch_induction (motive := fun c => c.key? = some key →
      routingKeyForCommand (op :: args) = some key) op args ?_ ?_ ?_ ?_
    · intro _ arg h
      cases h
    · intro _ h
      cases h
    · intro c name n hname hn hc hkey h
      rw [routingKey_cons, hc.2, if_pos hname]
      rw [hkey] at h
      have hlen := hc.1
      cases args with
      | nil =>
        simp only [List.length_cons, List.length_nil] at hlen
        omega
      | cons k args => exact h
    · intro h
      cases h

theorem dispatch_ping {cmd : List Bytes}
    (h : (cmd.length = 1 ∨ cmd.length = 2) ∧ cmd[0]? = some (bytes "ping")) :
    dispatch cmd = .ping cmd[1]? := by
  obtain ⟨hlen, hname⟩ := h
  match cmd, hlen, hname with
  | [op], _, hname =>
    obtain rfl : op = bytes "ping" := Option.some.inj hname
    rfl
  | [op, arg], _, hname =>
    obtain rfl : op = bytes "ping" := Option.some.inj hname
    rfl

theorem ping_unrouted {cmd : List Bytes}
    (h : (cmd.length = 1 ∨ cmd.length = 2) ∧ cmd[0]? = some (bytes "ping")) :
    isScatterGatherCommand cmd = false ∧ routingKeyForCommand cmd = none := by
  cases cmd with
  | nil => exact absurd h.2 nofun
  | cons op args =>
    obtain rfl : op = bytes "ping" := Option.some.inj h.2
    refine ⟨decide_eq_false fun hkeys => absurd (Option.some.inj hkeys.2) (by decide), ?_⟩
    rw [routingKeyForCommand, if_neg (by decide)]

theorem eq_keys_of_scatter {cmd : List Bytes} (h : isScatterGatherCommand cmd = true) :
    cmd = [bytes "keys"] := by
  obtain ⟨hlen, hhead⟩ := of_decide_eq_true h
  obtain ⟨args, rfl⟩ := List.head?_eq_some_iff.mp hhead
  rw [List.length_cons, Nat.add_eq_right, List.length_eq_zero_iff] at hlen
  rw [hlen]

/-! ## 2. Locality

Two statements about the reference, one for what is written and one for what is read. Together
they say that a command with a key can be moved to any map that has the same entry there.
-/

section Local

variable (R : Reading Z) (strtod : Bytes → StrtodResult) (clk : Nat)

/-- **A command writes nothing but its key**: every other key has what it had. -/
theorem refCommand_frame {m : RefStore Z} {cmd : Command} {key k : Bytes} (hkey : cmd.key? = some key)
    (hk : k ≠ key) : (refCommand R strtod clk m cmd).1.lookup k = m.lookup k := by
  have hins : ∀ e, (m.insert key e).lookup k = m.lookup k := fun e => Finmap.lookup_insert_of_ne m hk
  have hera : (m.erase key).lookup k = m.lookup k := Finmap.lookup_erase_ne hk
  cases cmd with
  | ping | keys | unknown => cases hkey
  | _ =>
    obtain rfl := Option.some.inj hkey
    simp only [refCommand, refIncr, refExpire, refZadd, refZrem]
    repeat' split
    all_goals simp only [hins, hera]

theorem refCommand_keyless (m : RefStore Z) {cmd : Command} (hkey : cmd.key? = none) :
    (refCommand R strtod clk m cmd).1 = m := by
  cases cmd with
  | ping | keys | unknown => rfl
  | _ => cases hkey

/-- What holds of both: a command leaves every key alone that is not its own. -/
theorem refCommand_other {m : RefStore Z} {cmd : Command} {key : Bytes} (hkey : cmd.key? ≠ some key) :
    (refCommand R strtod clk m cmd).1.lookup key = m.lookup key := by
  cases hk : cmd.key? with
  | none => rw [refCommand_keyless R strtod clk m hk]
  | some k => exact refCommand_frame R strtod clk hk fun h => hkey (by rw [hk, h])

/-- **A command reads nothing but its key**: on two maps with the same entry there it has the
same answers, and leaves the same entry. -/
theorem refCommand_local {m m' : RefStore Z} {cmd : Command} {key : Bytes} (hkey : cmd.key? = some key)
    (h : m.lookup key = m'.lookup key) :
    (refCommand R strtod clk m cmd).2 = (refCommand R strtod clk m' cmd).2 ∧
      (refCommand R strtod clk m cmd).1.lookup key = (refCommand R strtod clk m' cmd).1.lookup key := by
  have hins : ∀ (m : RefStore Z) e, (m.insert key e).lookup key = some e :=
    fun m e => Finmap.lookup_insert m
  have hera : ∀ m : RefStore Z, (m.erase key).lookup key = none := fun m => Finmap.lookup_erase _ _
  cases cmd with
  | ping | keys | unknown => cases hkey
  | _ =>
    obtain rfl := Option.some.inj hkey
    simp only [refCommand, refIncr, refExpire, refZadd, refZrem, refZscore, refZquery, refZset, h]
    repeat' split
    all_goals simp only [hins, hera, h, and_self]

end Local

/-! ## 3. The part of a shard

The slices of the shards are disjoint and make up the map. That a command commutes with taking
the slice of its owner is locality, and that it commutes with the others is the frame.
-/

/-- The entries whose keys belong to shard `i`. -/
def RefStore.slice (numShards i : Nat) (m : RefStore Z) : RefStore Z :=
  ⟨m.entries.filter fun e => shardForKey e.1 numShards = i,
    Multiset.nodup_keys.mp (Multiset.nodup_of_le (Multiset.map_le_map (Multiset.filter_le _ _))
      (Multiset.nodup_keys.mpr m.nodupKeys))⟩

theorem RefStore.lookup_slice (numShards i : Nat) (m : RefStore Z) (key : Bytes) :
    (m.slice numShards i).lookup key =
      if shardForKey key numShards = i then m.lookup key else none := by
  apply Option.ext
  intro re
  rw [← Option.mem_def, Finmap.mem_lookup_iff, RefStore.slice, Multiset.mem_filter,
    ← Finmap.mem_lookup_iff, Option.mem_def]
  split
  · rename_i h
    exact and_iff_left h
  · rename_i h
    simp [h]

theorem RefStore.purge_slice (numShards i now : Nat) (m : RefStore Z) :
    (m.slice numShards i).purge now = (m.purge now).slice numShards i := by
  refine Finmap.ext_lookup fun key => ?_
  rw [RefStore.purge, RefStore.lookup_filter, RefStore.lookup_slice, RefStore.lookup_slice,
    RefStore.purge, RefStore.lookup_filter]
  split
  · rfl
  · rfl

section Slice

variable (R : Reading Z) (strtod : Bytes → StrtodResult) (clk : Nat) {numShards : Nat} {m : RefStore Z}
  {cmd : Command} {key : Bytes}

/-- **The shard that owns the key does what the whole store does.** -/
theorem refCommand_slice (hkey : cmd.key? = some key) :
    refCommand R strtod clk (m.slice numShards (shardForKey key numShards)) cmd =
      ((refCommand R strtod clk m cmd).1.slice numShards (shardForKey key numShards),
        (refCommand R strtod clk m cmd).2) := by
  have hown : (m.slice numShards (shardForKey key numShards)).lookup key = m.lookup key := by
    rw [RefStore.lookup_slice, if_pos rfl]
  have hlocal := refCommand_local R strtod clk hkey hown
  refine Prod.ext (Finmap.ext_lookup fun k => ?_) hlocal.1
  rw [RefStore.lookup_slice]
  by_cases hk : k = key
  · rw [hk, hlocal.2, if_pos rfl]
  · rw [refCommand_frame R strtod clk hkey hk, refCommand_frame R strtod clk hkey hk,
      RefStore.lookup_slice]

/-- **The others need not know**: the slices of the shards that do not own the key are the same
before and after. -/
theorem slice_refCommand (hkey : cmd.key? = some key) {i : Nat} (hi : i ≠ shardForKey key numShards) :
    (refCommand R strtod clk m cmd).1.slice numShards i = m.slice numShards i := by
  refine Finmap.ext_lookup fun k => ?_
  rw [RefStore.lookup_slice, RefStore.lookup_slice]
  by_cases hk : k = key
  · rw [hk, if_neg (Ne.symm hi), if_neg (Ne.symm hi)]
  · rw [refCommand_frame R strtod clk hkey hk]

/-- **A routed command on the whole map**: on the slice of the shard that owns the key it does
what it does on the whole, and the other slices stay. -/
theorem refCommand_routed {words : List Bytes} (hkey : routingKeyForCommand words = some key) {i : Nat}
    (hi : shardForKey key numShards = i) :
    refCommand R strtod clk (m.slice numShards i) (dispatch words) =
        ((refCommand R strtod clk m (dispatch words)).1.slice numShards i,
          (refCommand R strtod clk m (dispatch words)).2) ∧
      ∀ j ≠ i, (refCommand R strtod clk m (dispatch words)).1.slice numShards j = m.slice numShards j := by
  rcases dispatch_routed hkey with hc | hc
  · rw [← hi]
    exact ⟨refCommand_slice _ _ _ hc, fun j hj => slice_refCommand _ _ _ hc hj⟩
  · rw [hc]
    exact ⟨rfl, fun _ _ => rfl⟩

end Slice

end ApexDB
