import ApexDB.Cli
import ApexDB.Proof.Counter
import ApexDB.Proof.Grammar
import ApexDB.Proof.TcpRpc

/-!
# What starts, and how it ends

A command line is a format with a reader in each program. Here is a writer for it (`proxyLine`,
`shardLine`, `kvSpec`), and the two facts that a format has to have: what the readers accept is
well formed, and **what is written is read back**, so that every cluster of valid endpoints can
be started, and starts as it was written.

The reader of endpoints goes by the last colon, so a host may contain colons. It may contain
commas on the command line and not in `KV_SHARDS`; there a comma at the end is allowed.

What a host is, is not looked at by any of the readers, except that it is not empty. Whether
there is a machine of that name is found out when the proxy connects.
-/

set_option autoImplicit false

namespace ApexDB

open Lib

/-! ## 1. Numbers and ports

Ports are read as unsigned numbers with a maximum and must not be 0. A text with a sign, with a
blank or with anything after its digits is refused.
-/

/-- A port that can be connected to. -/
def ValidPort (port : Nat) : Prop := 0 < port ∧ port < 2 ^ 16

instance (port : Nat) : Decidable (ValidPort port) := inferInstanceAs (Decidable (_ ∧ _))

theorem toDecimal_nat (n : Nat) : toDecimal n = digitBytes n := by
  rw [toDecimal_eq, if_neg (by omega), Int.natAbs_natCast]

/-- What `std::to_string` writes, `parse_unsigned` reads. -/
theorem parseUnsigned_toDecimal {n maximum : Nat} (hn : n < 2 ^ 64) (hmax : n ≤ maximum) :
    parseUnsigned (toDecimal n) maximum = some n := by
  have hempty : (digitBytes n).isEmpty = false := List.isEmpty_eq_false_iff.mpr (digitBytes_ne_nil n)
  have hread : fromCharsU64 (digitBytes n) = some (n, (digitBytes n).length) := by
    simp only [fromCharsU64, takeWhile_digitBytes, digitsVal_digitBytes, hempty, Bool.false_eq_true, if_false,
      if_pos hn]
  rw [toDecimal_nat, parseUnsigned, hempty]
  simp [hread, hmax]

theorem parseUnsigned_le {text : Bytes} {n maximum : Nat} (h : parseUnsigned text maximum = some n) :
    n ≤ maximum := by
  unfold parseUnsigned at h
  split at h
  · cases h
  split at h
  · cases h
  split at h
  · cases h
    rename_i hle
    exact hle.2
  · cases h

theorem parsePort_toDecimal {port : Nat} (h : ValidPort port) : parsePort (toDecimal port) = some port := by
  obtain ⟨hpos, hlt⟩ := h
  have hread : parseUnsigned (toDecimal port) 65535 = some port :=
    parseUnsigned_toDecimal (hlt.trans (by decide)) (Nat.le_of_lt_succ hlt)
  simp only [parsePort, hread, if_neg (Nat.ne_of_gt hpos), Nat.mod_eq_of_lt hlt]

theorem parsePort_valid {text : Bytes} {port : Nat} (h : parsePort text = some port) : ValidPort port := by
  unfold parsePort at h
  split at h
  · cases h
  · rename_i value hvalue
    have hle := parseUnsigned_le hvalue
    split at h
    · cases h
    · cases h
      have hlt : value < 2 ^ 16 := Nat.lt_succ_of_le hle
      rw [Nat.mod_eq_of_lt hlt]
      exact ⟨Nat.pos_of_ne_zero ‹_›, hlt⟩

/-! ## 2. Endpoints

`parse_kv_shards` walks over the text with a position, so its lemmas have the part that it has
passed as a prefix, of any length.
-/

/-- An endpoint that can be connected to, as far as its text shows. -/
structure ShardEndpoint.Valid (ep : ShardEndpoint) : Prop where
  host : ep.host ≠ []
  port : ValidPort ep.port

instance (ep : ShardEndpoint) : Decidable ep.Valid :=
  decidable_of_iff (ep.host ≠ [] ∧ ValidPort ep.port) ⟨fun h => ⟨h.1, h.2⟩, fun h => ⟨h.host, h.port⟩⟩

def ShardEndpoint.text (ep : ShardEndpoint) : Bytes := ep.host ++ 58 :: toDecimal ep.port

theorem idxOf?_append_cons {c : UInt8} {x : Bytes} (y : Bytes) (hx : c ∉ x) :
    (x ++ c :: y).idxOf? c = some x.length := by
  rw [List.idxOf?_eq_some_iff]
  refine ⟨by simp, by simp, fun j hj => ?_⟩
  rw [List.getElem_append_left hj]
  exact fun heq => hx (heq ▸ List.getElem_mem hj)

theorem rfind_append_cons {c : UInt8} (x : Bytes) {y : Bytes} (hy : c ∉ y) :
    rfind c (x ++ c :: y) = some x.length := by
  have hrev : (x ++ c :: y).reverse = y.reverse ++ c :: x.reverse := by simp
  rw [rfind, hrev, idxOf?_append_cons _ (by simpa using hy), Option.map_some]
  simp only [List.length_append, List.length_cons, List.length_reverse]
  congr 1
  omega

theorem not_mem_toDecimal {c : UInt8} (hc : isDigit c = false) (n : Nat) : c ∉ toDecimal n := by
  rw [toDecimal_nat]
  intro hmem
  rw [isDigit_digitBytes hmem] at hc
  cases hc

theorem parseHostPort_text {ep : ShardEndpoint} (h : ep.Valid) : parseHostPort ep.text = some ep := by
  have hcolon : rfind 58 ep.text = some ep.host.length := rfind_append_cons _ (not_mem_toDecimal (by decide) _)
  have hpos : ep.host.length ≠ 0 := List.length_eq_zero_iff.not.mpr h.host
  have hlen : ep.text.length = ep.host.length + 1 + (toDecimal ep.port).length := by
    rw [ShardEndpoint.text, List.length_append, List.length_cons]
    omega
  have hdigits : 0 < (toDecimal (ep.port : Int)).length := by
    rw [toDecimal_nat]
    exact List.length_pos_iff.mpr (digitBytes_ne_nil _)
  have hdrop : ep.text.drop (ep.host.length + 1) = toDecimal ep.port := by
    simp [ShardEndpoint.text, List.drop_append]
  have htake : ep.text.take ep.host.length = ep.host := List.take_left
  simp only [parseHostPort, hcolon]
  rw [if_neg (by omega), hdrop, htake, parsePort_toDecimal h.port]
  rfl

theorem parseHostPort_valid {s : Bytes} {ep : ShardEndpoint} (h : parseHostPort s = some ep) : ep.Valid := by
  unfold parseHostPort at h
  split at h
  · cases h
  · rename_i colon _
    split at h
    · cases h
    · rename_i hbounds
      obtain ⟨port, hport, rfl⟩ := Option.map_eq_some_iff.mp h
      refine ⟨?_, parsePort_valid hport⟩
      rw [ne_eq, List.take_eq_nil_iff, not_or]
      refine ⟨fun hzero => hbounds (.inl hzero), fun hnil => hbounds (.inr ?_)⟩
      rw [hnil]
      exact Nat.zero_le _

theorem valid_concat {eps : List ShardEndpoint} {ep : ShardEndpoint} (h : ∀ ep ∈ eps, ep.Valid) (hep : ep.Valid) :
    ∀ e ∈ eps ++ [ep], e.Valid := by
  intro e he
  rcases List.mem_append.mp he with he | he
  · exact h e he
  · exact List.mem_singleton.mp he ▸ hep

def kvSpec (eps : List ShardEndpoint) : Bytes := List.intercalate [44] (eps.map ShardEndpoint.text)

theorem kvSpec_cons (ep ep' : ShardEndpoint) (eps : List ShardEndpoint) :
    kvSpec (ep :: ep' :: eps) = ep.text ++ 44 :: kvSpec (ep' :: eps) := by
  simp [kvSpec, List.intercalate]

section Spec

variable {pre rest : Bytes} {ep : ShardEndpoint} {acc : List ShardEndpoint}

theorem comma_not_mem_text (h : 44 ∉ ep.host) : (44 : UInt8) ∉ ep.text := by
  rw [ShardEndpoint.text, List.mem_append, List.mem_cons, not_or, not_or]
  exact ⟨h, by decide, not_mem_toDecimal (by decide) _⟩

theorem ShardEndpoint.length_text_pos (ep : ShardEndpoint) : 0 < ep.text.length := by
  rw [ShardEndpoint.text, List.length_append, List.length_cons]
  omega

theorem kvShardsTurn_comma (hvalid : ep.Valid) (hcomma : 44 ∉ ep.host) :
    kvShardsTurn (pre ++ (ep.text ++ 44 :: rest)) (pre.length, acc) =
      some (.again (pre.length + ep.text.length + 1, acc ++ [ep])) := by
  have hlt : ¬(pre ++ (ep.text ++ 44 :: rest)).length ≤ pre.length := by
    have := ep.length_text_pos
    simp only [List.length_append, List.length_cons]
    omega
  have hfind : find 44 (pre ++ (ep.text ++ 44 :: rest)) pre.length = some (pre.length + ep.text.length) := by
    rw [find, List.drop_left, idxOf?_append_cons _ (comma_not_mem_text hcomma)]
    rfl
  simp only [kvShardsTurn, if_neg hlt, hfind, Option.elim_some, List.drop_left, Nat.add_sub_cancel_left,
    List.take_left, parseHostPort_text hvalid]

theorem kvShardsTurn_last (hvalid : ep.Valid) (hcomma : 44 ∉ ep.host) :
    kvShardsTurn (pre ++ ep.text) (pre.length, acc) = some (.done (some (acc ++ [ep]))) := by
  have hlt : ¬(pre ++ ep.text).length ≤ pre.length := by
    have := ep.length_text_pos
    rw [List.length_append]
    omega
  have hfind : find 44 (pre ++ ep.text) pre.length = none := by
    rw [find, List.drop_left, List.idxOf?_eq_none_iff.mpr (comma_not_mem_text hcomma)]
    rfl
  simp only [kvShardsTurn, if_neg hlt, hfind, Option.elim_none, List.drop_left, parseHostPort_text hvalid]

theorem kvShardsTurn_end : kvShardsTurn pre (pre.length, acc) = some (.done (some acc)) := by
  simp only [kvShardsTurn, if_pos (Nat.le_refl _)]

end Spec

/-- **The loop reads the endpoints that were written**, from wherever it stands. -/
theorem kvShards_loop {tail : Bytes} (htail : tail = [] ∨ tail = [44]) : ∀ (eps : List ShardEndpoint) (pre : Bytes)
    (acc : List ShardEndpoint) (fuel : Nat), eps ≠ [] → (∀ ep ∈ eps, ep.Valid ∧ 44 ∉ ep.host) →
    eps.length < fuel →
    loop (kvShardsTurn (pre ++ (kvSpec eps ++ tail))) fuel (pre.length, acc) = some (some (acc ++ eps)) := by
  intro eps
  induction eps with
  | nil => intro pre acc fuel hne; exact absurd rfl hne
  | cons ep eps ih =>
    intro pre acc fuel _ hall hfuel
    obtain ⟨hvalid, hcomma⟩ := hall ep List.mem_cons_self
    have hrest := fun ep' hep' => hall ep' (List.mem_cons_of_mem ep hep')
    rw [List.length_cons] at hfuel
    obtain ⟨fuel, rfl⟩ : ∃ k, fuel = k + 2 := ⟨fuel - 2, by omega⟩
    cases eps with
    | nil =>
      have hone : kvSpec [ep] = ep.text := by simp [kvSpec, List.intercalate]
      rw [hone]
      rcases htail with rfl | rfl
      · rw [List.append_nil, loop_done (kvShardsTurn_last hvalid hcomma)]
      · have hlen : pre.length + ep.text.length + 1 = (pre ++ (ep.text ++ [44])).length := by
          simp [Nat.add_assoc]
        rw [loop_again (kvShardsTurn_comma hvalid hcomma), hlen, loop_done kvShardsTurn_end]
    | cons ep' eps =>
      -- what was read joins what stands in front
      have hsplit : pre ++ (kvSpec (ep :: ep' :: eps) ++ tail) =
          pre ++ (ep.text ++ 44 :: (kvSpec (ep' :: eps) ++ tail)) := by
        rw [kvSpec_cons, List.append_assoc, List.cons_append]
      have hjoin : pre ++ (ep.text ++ 44 :: (kvSpec (ep' :: eps) ++ tail)) =
          (pre ++ ep.text ++ [44]) ++ (kvSpec (ep' :: eps) ++ tail) := by simp
      have hlen : pre.length + ep.text.length + 1 = (pre ++ ep.text ++ [44]).length := by
        simp [Nat.add_assoc]
      rw [hsplit, loop_again (kvShardsTurn_comma hvalid hcomma), hjoin, hlen,
        ih _ (acc ++ [ep]) (fuel + 1) (List.cons_ne_nil _ _) hrest (by rw [List.length_cons] at hfuel ⊢; omega)]
      simp

theorem length_le_kvSpec : ∀ eps : List ShardEndpoint, eps.length ≤ (kvSpec eps).length := by
  intro eps
  induction eps with
  | nil => exact Nat.zero_le _
  | cons ep eps ih =>
    cases eps with
    | nil =>
      have hone : kvSpec [ep] = ep.text := by simp [kvSpec, List.intercalate]
      rw [hone]
      exact ep.length_text_pos
    | cons ep' eps =>
      have hpos := ep.length_text_pos
      have hlen : (kvSpec (ep :: ep' :: eps)).length = ep.text.length + ((kvSpec (ep' :: eps)).length + 1) := by
        rw [kvSpec_cons, List.length_append, List.length_cons]
      rw [hlen, List.length_cons]
      omega

/-- **What is written to `KV_SHARDS` is read back**, with a comma at the end or without. -/
theorem kvShards_kvSpec {eps : List ShardEndpoint} {spec : Bytes} (hne : eps ≠ [])
    (hall : ∀ ep ∈ eps, ep.Valid ∧ 44 ∉ ep.host) (hspec : spec = kvSpec eps ∨ spec = kvSpec eps ++ [44]) :
    kvShards spec = some (some eps) := by
  obtain ⟨tail, htail, rfl⟩ : ∃ tail, (tail = [] ∨ tail = [44]) ∧ spec = kvSpec eps ++ tail := by
    rcases hspec with rfl | rfl
    · exact ⟨[], .inl rfl, (List.append_nil _).symm⟩
    · exact ⟨[44], .inr rfl, rfl⟩
  have hfuel : eps.length < (kvSpec eps ++ tail).length + 1 := by
    have := length_le_kvSpec eps
    rw [List.length_append]
    omega
  exact kvShards_loop htail eps [] [] _ hne hall hfuel

theorem find_lt {c : UInt8} {s : Bytes} {start i : Nat} (h : find c s start = some i) : start ≤ i ∧ i < s.length := by
  obtain ⟨k, hk, rfl⟩ := Option.map_eq_some_iff.mp h
  obtain ⟨hlt, -⟩ := List.idxOf?_eq_some_iff.mp hk
  rw [List.length_drop] at hlt
  omega

/-- **The loop ends, on any text, and what it accepts is valid.** -/
theorem kvShards_total (spec : Bytes) :
    ∃ shards, kvShards spec = some shards ∧ ∀ eps, shards = some eps → ∀ ep ∈ eps, ep.Valid := by
  refine loop_total (kvShardsTurn spec) (fun s => ∀ ep ∈ s.2, ep.Valid) (fun s => spec.length - s.1)
    (fun shards => ∀ eps, shards = some eps → ∀ ep ∈ eps, ep.Valid) ?_ (spec.length + 1) (0, []) (by simp)
    (Nat.lt_succ_of_le (Nat.sub_le _ _))
  rintro ⟨start, shards⟩ hvalid
  by_cases hend : spec.length ≤ start
  · refine .inr ⟨some shards, by simp only [kvShardsTurn, if_pos hend], ?_⟩
    intro eps heps
    cases heps
    exact hvalid
  cases hcomma : find 44 spec start with
  | none =>
    cases hep : parseHostPort (spec.drop start) with
    | none =>
      exact .inr ⟨none, by simp only [kvShardsTurn, if_neg hend, hcomma, Option.elim_none, hep], by simp⟩
    | some ep =>
      refine .inr ⟨some (shards ++ [ep]), by simp only [kvShardsTurn, if_neg hend, hcomma, Option.elim_none, hep], ?_⟩
      intro eps heps
      cases heps
      exact valid_concat hvalid (parseHostPort_valid hep)
  | some comma =>
    cases hep : parseHostPort ((spec.drop start).take (comma - start)) with
    | none =>
      exact .inr ⟨none, by simp only [kvShardsTurn, if_neg hend, hcomma, Option.elim_some, hep], by simp⟩
    | some ep =>
      obtain ⟨hle, hlt⟩ := find_lt hcomma
      refine .inl ⟨(comma + 1, shards ++ [ep]),
        by simp only [kvShardsTurn, if_neg hend, hcomma, Option.elim_some, hep], ?_, by simp only; omega⟩
      exact valid_concat hvalid (parseHostPort_valid hep)

/-! ## 3. What starts

An option sets one field of the configuration. The loop over the options is one for the shard
and the proxy, so that a property of the configuration that each option keeps is kept by the
loop; the client has a loop of its own.
-/

/-- What every option keeps, the loop keeps. -/
theorem optionLoop_inv {α : Type} {options : List (Bytes × (Bytes → α → Option α))} (P : α → Prop)
    (hset : ∀ arg set, options.lookup arg = some set → ∀ text c c', set text c = some c' → P c → P c') :
    ∀ {args : List Bytes} {c c' : α}, optionLoop options c args = .ok c' → P c → P c' := by
  intro args
  induction args using List.twoStepInduction with
  | nil => intro c c' hrun hc; cases hrun; exact hc
  | singleton arg => intro c c' hrun _; cases hrun
  | cons_cons arg value rest ih _ =>
    intro c c' hrun hc
    rw [optionLoop] at hrun
    split at hrun
    · cases hrun
    · rename_i set hlookup
      split at hrun
      · cases hrun
      · rename_i c₁ hc₁
        exact ih hrun (hset arg set hlookup value c c₁ hc₁ hc)

theorem shardOptions_cases {arg : Bytes} {set : Bytes → ShardConfig → Option ShardConfig}
    (h : shardOptions.lookup arg = some set) {text : Bytes} {c c' : ShardConfig} (hset : set text c = some c') :
    (∃ v, v < 2 ^ 64 ∧ c' = { c with shardId := v }) ∨ (∃ v, v < 2 ^ 64 ∧ c' = { c with numShards := v }) ∨
      ∃ v, ValidPort v ∧ c' = { c with port := v } := by
  simp only [shardOptions, List.lookup_cons, List.lookup_nil] at h
  split at h
  · cases h
    obtain ⟨v, hv, rfl⟩ := Option.map_eq_some_iff.mp hset
    exact .inl ⟨v, Nat.lt_of_le_pred (by decide) (parseUnsigned_le hv), rfl⟩
  split at h
  · cases h
    obtain ⟨v, hv, rfl⟩ := Option.map_eq_some_iff.mp hset
    exact .inr (.inl ⟨v, Nat.lt_of_le_pred (by decide) (parseUnsigned_le hv), rfl⟩)
  split at h
  · cases h
    obtain ⟨v, hv, rfl⟩ := Option.map_eq_some_iff.mp hset
    exact .inr (.inr ⟨v, parsePort_valid hv, rfl⟩)
  · cases h

theorem proxyOptions_cases {arg : Bytes} {set : Bytes → ProxyConfig → Option ProxyConfig}
    (h : proxyOptions.lookup arg = some set) {text : Bytes} {c c' : ProxyConfig} (hset : set text c = some c') :
    (∃ v, ValidPort v ∧ c' = { c with port := v }) ∨
      ∃ ep : ShardEndpoint, ep.Valid ∧ c' = { c with shards := c.shards ++ [ep] } := by
  simp only [proxyOptions, List.lookup_cons, List.lookup_nil] at h
  split at h
  · cases h
    obtain ⟨v, hv, rfl⟩ := Option.map_eq_some_iff.mp hset
    exact .inl ⟨v, parsePort_valid hv, rfl⟩
  split at h
  · cases h
    obtain ⟨ep, hep, rfl⟩ := Option.map_eq_some_iff.mp hset
    exact .inr ⟨ep, parseHostPort_valid hep, rfl⟩
  · cases h

structure ShardConfig.Valid (c : ShardConfig) : Prop where
  shardId : c.shardId < c.numShards
  numShards : c.numShards < 2 ^ 64
  port : ValidPort c.port

structure ProxyConfig.Valid (c : ProxyConfig) : Prop where
  port : ValidPort c.port
  shards : c.shards ≠ []
  endpoints : ∀ ep ∈ c.shards, ep.Valid

theorem shardMain_valid {prog : Bytes} {args : List Bytes} {c : ShardConfig} (h : shardMain prog args = .go c) :
    c.Valid := by
  unfold shardMain at h
  split at h
  · cases h
  · rename_i c₁ hloop
    split at h
    · cases h
    · rename_i hlt
      cases h
      obtain ⟨hshards, hport⟩ := optionLoop_inv (fun c : ShardConfig => c.numShards < 2 ^ 64 ∧ ValidPort c.port)
        (by
          rintro arg set hlookup text c c' hset ⟨hc₁, hc₂⟩
          rcases shardOptions_cases hlookup hset with ⟨v, hv, rfl⟩ | ⟨v, hv, rfl⟩ | ⟨v, hv, rfl⟩
          · exact ⟨hc₁, hc₂⟩
          · exact ⟨hv, hc₂⟩
          · exact ⟨hc₁, hv⟩) hloop ⟨by decide, by decide⟩
      exact ⟨Nat.not_le.mp hlt, hshards, hport⟩

theorem proxyMain_valid (prog : Bytes) (env : Option Bytes) (args : List Bytes) :
    ∃ start, proxyMain prog env args = some start ∧ ∀ c, start = .go c → c.Valid := by
  unfold proxyMain
  split
  · exact ⟨_, rfl, by simp⟩
  · rename_i c hloop
    obtain ⟨hport, hshards⟩ := optionLoop_inv
      (fun c : ProxyConfig => ValidPort c.port ∧ ∀ ep ∈ c.shards, ep.Valid)
      (by
        rintro arg set hlookup text c c' hset ⟨hc₁, hc₂⟩
        rcases proxyOptions_cases hlookup hset with ⟨v, hv, rfl⟩ | ⟨ep, hep, rfl⟩
        · exact ⟨hv, hc₂⟩
        · exact ⟨hc₁, valid_concat hc₂ hep⟩) hloop ⟨by decide, by simp⟩
    obtain ⟨eps?, hread, hall⟩ : ∃ eps?, proxyShards env c.shards = some eps? ∧
        ∀ eps, eps? = some eps → ∀ ep ∈ eps, ShardEndpoint.Valid ep := by
      unfold proxyShards
      split
      · cases env with
        | none => exact ⟨some [], rfl, by simp⟩
        | some spec => exact kvShards_total spec
      · refine ⟨some c.shards, rfl, ?_⟩
        rintro eps heps
        cases heps
        exact hshards
    rw [hread]
    cases eps? with
    | none => exact ⟨_, rfl, by simp⟩
    | some eps =>
      cases eps with
      | nil => exact ⟨_, rfl, by simp⟩
      | cons ep eps =>
        refine ⟨_, rfl, ?_⟩
        rintro c' hc'
        cases hc'
        exact ⟨hport, List.cons_ne_nil _ _, hall _ rfl⟩

theorem clientLoop_port : ∀ {args : List Bytes} {c c' : ClientConfig}, clientLoop c args = .ok c' →
    ValidPort c.port → ValidPort c'.port := by
  intro args
  induction args using List.twoStepInduction with
  | nil => intro c c' hrun hc; cases hrun; exact hc
  | singleton arg =>
    intro c c' hrun hc
    rw [clientLoop] at hrun
    split at hrun
    · cases hrun
    · cases hrun
      exact hc
  | cons_cons arg value rest ih _ =>
    intro c c' hrun hc
    rw [clientLoop] at hrun
    split at hrun
    · exact ih hrun hc
    split at hrun
    · split at hrun
      · cases hrun
      · rename_i port hport
        exact ih hrun (parsePort_valid hport)
    split at hrun
    · cases hrun
    · cases hrun
      exact hc

/-- **What starts is well formed.** For any arguments and any environment: a server or a shard
that starts listens on a port that there is, and a shard has a number below that of the shards;
a proxy that starts has at least one shard, all of them with a host and a port, and for every
key the index that it takes the endpoint at is one of the list; a client that goes on has a
command. -/
theorem programs_start_well_formed (prog : Bytes) (args : List Bytes) (env : Option Bytes) :
    (∀ port, serverMain prog args = .go port → ValidPort port) ∧
    (∀ c, shardMain prog args = .go c → ValidPort c.port ∧ c.shardId < c.numShards ∧ c.numShards < 2 ^ 64) ∧
    (∃ start, proxyMain prog env args = some start ∧ ∀ c, start = .go c → ValidPort c.port ∧
      (∀ ep ∈ c.shards, ep.host ≠ [] ∧ ValidPort ep.port) ∧
      ∀ key, ∃ ep, c.shards[shardForKey key c.shards.length]? = some ep) ∧
    ∀ c, clientMain prog args = .go c → ValidPort c.port ∧ c.cmd ≠ [] := by
  refine ⟨fun port h => ?_, fun c h => ?_, ?_, fun c h => ?_⟩
  · unfold serverMain at h
    dsimp only at h
    split at h
    · cases h
      decide
    · cases h
    · split at h
      · cases h
      split at h
      · cases h
      · rename_i port' hport
        cases h
        exact parsePort_valid hport
    · cases h
  · have hc := shardMain_valid h
    exact ⟨hc.port, hc.shardId, hc.numShards⟩
  · obtain ⟨start, hrun, hall⟩ := proxyMain_valid prog env args
    refine ⟨start, hrun, fun c hc => ?_⟩
    have hvalid := hall c hc
    refine ⟨hvalid.port, fun ep hep => ⟨(hvalid.endpoints ep hep).host, (hvalid.endpoints ep hep).port⟩, fun key => ?_⟩
    have hpos : 0 < c.shards.length := List.length_pos_iff.mpr hvalid.shards
    have hlt : shardForKey key c.shards.length < c.shards.length := by
      rw [shardForKey, if_neg (Nat.ne_of_gt hpos)]
      exact Nat.mod_lt _ hpos
    exact ⟨_, List.getElem?_eq_getElem hlt⟩
  · unfold clientMain at h
    split at h
    · cases h
    · rename_i c₁ hloop
      split at h
      · cases h
      · rename_i hne
        cases h
        exact ⟨clientLoop_port hloop (by decide), fun hnil => hne (List.isEmpty_iff.mpr hnil)⟩

/-! ## 4. What is written starts

Every writer is followed by the theorem that its reader returns what was written. The order of
the options is one of those that the readers allow.
-/

def portLine (port : Nat) : List Bytes := [bytes "--port", toDecimal port]

def proxyLine (c : ProxyConfig) : List Bytes :=
  portLine c.port ++ c.shards.flatMap fun ep => [bytes "--shard", ep.text]

def shardLine (c : ShardConfig) : List Bytes :=
  [bytes "--id", toDecimal c.shardId, bytes "--shards", toDecimal c.numShards] ++ portLine c.port

def clientLine (c : ClientConfig) : List Bytes :=
  [bytes "-h", c.host, bytes "-p", toDecimal c.port] ++ c.cmd

theorem optionLoop_set {α : Type} {options : List (Bytes × (Bytes → α → Option α))} {arg text : Bytes}
    {set : Bytes → α → Option α} {c c' : α} (rest : List Bytes) (hlookup : options.lookup arg = some set)
    (hset : set text c = some c') : optionLoop options c (arg :: text :: rest) = optionLoop options c' rest := by
  simp only [optionLoop, hlookup, hset]

theorem shardMain_line (prog : Bytes) {c : ShardConfig} (h : c.Valid) : shardMain prog (shardLine c) = .go c := by
  have hid : parseUnsigned (toDecimal c.shardId) (2 ^ 64 - 1) = some c.shardId :=
    parseUnsigned_toDecimal (h.shardId.trans h.numShards) (Nat.le_pred_of_lt (h.shardId.trans h.numShards))
  have hnum : parseUnsigned (toDecimal c.numShards) (2 ^ 64 - 1) = some c.numShards :=
    parseUnsigned_toDecimal h.numShards (Nat.le_pred_of_lt h.numShards)
  have hloop : optionLoop shardOptions {} (shardLine c) = .ok c := by
    rw [shardLine, portLine, List.cons_append, List.cons_append, List.cons_append, List.cons_append, List.nil_append,
      optionLoop_set _ rfl (congrArg (Option.map _) hid), optionLoop_set _ rfl (congrArg (Option.map _) hnum),
      optionLoop_set _ rfl (congrArg (Option.map _) (parsePort_toDecimal h.port)), optionLoop]
  simp only [shardMain, hloop, if_neg (Nat.not_le.mpr h.shardId)]

theorem optionLoop_endpoints : ∀ (eps : List ShardEndpoint) (c : ProxyConfig), (∀ ep ∈ eps, ep.Valid) →
    optionLoop proxyOptions c (eps.flatMap fun ep => [bytes "--shard", ep.text]) =
      .ok { c with shards := c.shards ++ eps } := by
  intro eps
  induction eps with
  | nil =>
    intro c _
    rw [List.append_nil]
    rfl
  | cons ep eps ih =>
    intro c hall
    have hep := parseHostPort_text (hall ep List.mem_cons_self)
    rw [List.flatMap_cons, List.cons_append, List.cons_append, List.nil_append,
      optionLoop_set _ rfl (congrArg (Option.map _) hep), ih _ fun e he => hall e (List.mem_cons_of_mem _ he)]
    simp

theorem optionLoop_proxyLine {c : ProxyConfig} (hport : ValidPort c.port) (hall : ∀ ep ∈ c.shards, ep.Valid) :
    optionLoop proxyOptions {} (proxyLine c) = .ok c := by
  rw [proxyLine, portLine, List.cons_append, List.cons_append, List.nil_append,
    optionLoop_set _ rfl (congrArg (Option.map _) (parsePort_toDecimal hport)), optionLoop_endpoints _ _ hall]
  rfl

theorem proxyMain_go {prog : Bytes} {env : Option Bytes} {args : List Bytes} {c : ProxyConfig}
    {shards : List ShardEndpoint} (hloop : optionLoop proxyOptions {} args = .ok c)
    (hread : proxyShards env c.shards = some (some shards)) (hne : shards ≠ []) :
    proxyMain prog env args = some (.go { c with shards := shards }) := by
  cases shards with
  | nil => exact absurd rfl hne
  | cons ep eps => simp [proxyMain, hloop, hread]

theorem clientMain_line (prog : Bytes) {c : ClientConfig} (hport : ValidPort c.port) {op : Bytes}
    {args : List Bytes} (hcmd : c.cmd = op :: args)
    (hop : op ∉ [bytes "-h", bytes "-p", bytes "--help"]) : clientMain prog (clientLine c) = .go c := by
  simp only [List.mem_cons, List.not_mem_nil, or_false, not_or] at hop
  obtain ⟨hh, hp, hhelp⟩ := hop
  have hrest : ∀ c' : ClientConfig, clientLoop c' (op :: args) = .ok { c' with cmd := op :: args } := by
    intro c'
    cases args with
    | nil => rw [clientLoop, if_neg hhelp]
    | cons value rest => rw [clientLoop, if_neg hh, if_neg hp, if_neg hhelp]
  have hflag : bytes "-p" ≠ bytes "-h" := by decide
  have hloop : clientLoop {} (clientLine c) = .ok c := by
    rw [clientLine, hcmd, List.cons_append, List.cons_append, List.cons_append, List.cons_append, List.nil_append,
      clientLoop, if_pos rfl, clientLoop, if_neg hflag, if_pos rfl, parsePort_toDecimal hport]
    dsimp only
    rw [hrest, ← hcmd]
  simp [clientMain, hloop, hcmd]

/-- **A cluster starts as it was written.** For any endpoints with a host and a port, at least
one of them: the proxy started with these as arguments has exactly these shards, in this order,
whatever the environment says; so has a proxy that finds them in `KV_SHARDS`, with a comma at
the end or without, if no host contains one; and the shards started with their numbers are shard
0 to the last of so many, each on its own port. A client that is started with a host, a port and
a command has these. -/
theorem cluster_starts (prog : Bytes) (port : Nat) (hport : ValidPort port) (eps : List ShardEndpoint)
    (hne : eps ≠ []) (hvalid : ∀ ep ∈ eps, ep.Valid) (hlen : eps.length < 2 ^ 64) :
    (∀ env, proxyMain prog env (proxyLine ⟨port, eps⟩) = some (.go ⟨port, eps⟩)) ∧
    ((∀ ep ∈ eps, 44 ∉ ep.host) → ∀ spec, spec = kvSpec eps ∨ spec = kvSpec eps ++ [44] →
      proxyMain prog (some spec) (portLine port) = some (.go ⟨port, eps⟩)) ∧
    (∀ i ep, eps[i]? = some ep →
      shardMain prog (shardLine ⟨i, eps.length, ep.port⟩) = .go ⟨i, eps.length, ep.port⟩) ∧
    ∀ host op args, op ∉ [bytes "-h", bytes "-p", bytes "--help"] →
      clientMain prog (clientLine ⟨host, port, op :: args⟩) = .go ⟨host, port, op :: args⟩ := by
  refine ⟨fun env => ?_, fun hcomma spec hspec => ?_, fun i ep hi => ?_, fun host op args hop => ?_⟩
  · refine proxyMain_go (optionLoop_proxyLine (c := ⟨port, eps⟩) hport hvalid) ?_ hne
    rw [proxyShards, if_neg (by rwa [List.isEmpty_iff])]
  · have hloop : optionLoop proxyOptions {} (portLine port) = .ok ⟨port, []⟩ := by
      have h := optionLoop_proxyLine (c := ⟨port, []⟩) hport (by simp)
      rwa [proxyLine, List.flatMap_nil, List.append_nil] at h
    exact proxyMain_go hloop (kvShards_kvSpec hne (fun ep hep => ⟨hvalid ep hep, hcomma ep hep⟩) hspec) hne
  · obtain ⟨hlt, rfl⟩ := List.getElem?_eq_some_iff.mp hi
    exact shardMain_line prog ⟨hlt, hlen, (hvalid _ (List.getElem_mem hlt)).port⟩
  · exact clientMain_line prog (c := ⟨host, port, op :: args⟩) hport rfl hop

/-- Two shards, one of them at an address with colons. -/
theorem cluster_starts_two :
    proxyMain (bytes "proxy") (some (bytes "127.0.0.1:7000,::1:7001,")) [bytes "--port", bytes "6380"] =
        some (.go ⟨6380, [⟨bytes "127.0.0.1", 7000⟩, ⟨bytes "::1", 7001⟩]⟩) ∧
      shardMain (bytes "proxy")
        [bytes "--id", bytes "1", bytes "--shards", bytes "2", bytes "--port", bytes "7001"] = .go ⟨1, 2, 7001⟩ := by
  obtain ⟨-, henv, hshard, -⟩ := cluster_starts (bytes "proxy") 6380 (by decide)
    [⟨bytes "127.0.0.1", 7000⟩, ⟨bytes "::1", 7001⟩] (by decide) (by decide) (by decide)
  exact ⟨henv (by decide) _ (.inr rfl), hshard 1 _ rfl⟩

/-! ## 5. How the client ends

The exit code joins three things: whether the call has come back, whether what came back is a
value, and whether this value is an error.
-/

/-- The client takes a value for what it is. -/
theorem clientExit_frame {v : Value} (hnest : v.nesting ≤ 64) :
    ∃ code, clientExit (some (frameOf v.encode)) = some (code, []) ∧ code ≤ 1 ∧ (code = 0 ↔ ¬(sent v).IsErr) := by
  have hbody : bodyOf v.encode = (sent v).encode := bodyOf_encode v
  have hmax := length_bodyOf v.encode
  rw [hbody] at hmax
  have hlen : (frameOf v.encode).length = 4 + (sent v).encode.length := by rw [length_frameOf, hbody]
  have hpos : 0 < (sent v).encode.length := List.length_pos_iff.mpr (Value.encode_ne_nil _)
  have hdrop : (frameOf v.encode).drop 4 = (sent v).encode := by
    rw [frameOf, List.drop_left' (length_le 4 _), hbody]
  have hsent : (sent v).nesting < kMaxDepth := by
    unfold sent
    split
    · decide
    · exact Nat.lt_succ_of_le hnest
  have hprint := printResponse_encode (sent v) kMaxDepth [] hsent (Nat.lt_of_le_of_lt hmax (by decide))
  rw [List.append_nil] at hprint
  have hhead : (frameOf v.encode)[4]? = (sent v).encode.head? := by
    rw [List.head?_eq_getElem?, ← hdrop, List.getElem?_drop]
  have hall : ¬(((sent v).encode.length : Int) < 0 ∨
      ((sent v).encode.length : Int).toNat ≠ (frameOf v.encode).length - 4) := by
    rw [hlen, Int.toNat_natCast]
    omega
  refine ⟨if (frameOf v.encode)[4]? = some Tag.err.byte then 1 else 0, ?_, ?_, ?_⟩
  · rw [clientExit, if_neg (by omega), hdrop, hprint]
    simp only [Option.bind_eq_bind, Option.bind_some, if_neg hall]
    rfl
  · split
    · exact Nat.le_refl 1
    · exact Nat.zero_le 1
  · rw [← Value.head?_encode_iff, ← hhead]
    split
    · exact iff_of_false Nat.one_ne_zero (not_not_intro ‹_›)
    · exact iff_of_true rfl ‹_›

variable {σ : Type} (h : Handler σ)

/-- **The client's exit code tells what happened.** In any run of the client and a server whose
handler answers with tagged values, whatever fails on the way: when `tcp_rpc` has returned,
`print_response` does not fault, and the client exits with 0 exactly if its command was
executed, once, and the reply that was sent is not an error; otherwise with 1, and with a text
on `stderr` exactly if there is no reply. -/
theorem client_exit_code (hval : ∀ s cmd, ∃ v : Value, v.nesting ≤ 64 ∧ (h s cmd).2 = v.encode) (s₀ : σ)
    (connected : Bool) (cmd : List Bytes) (evs : List (NetEvent σ)) :
    ∃ N, evs.foldlM (Net.step h) ⟨tcpRpc connected cmd, { state := s₀ }, [], []⟩ = some N ∧
      ∀ result out, N.rpc = .returned result out → ∃ code text,
        clientExit (if result then some out else none) = some (code, text) ∧ code ≤ 1 ∧
        (code = 0 ↔ result = true ∧ ∃ s v, N.session.calls = [(s, cmd)] ∧ (h s cmd).2 = v.encode ∧
          ¬(sent v).IsErr) ∧
        (text = [] ↔ result = true) := by
  obtain ⟨N, hrun, hN⟩ := Net.run_inv h s₀ connected (encodeRequest cmd) evs
  refine ⟨N, hrun, fun result out hret => ?_⟩
  cases result with
  | false =>
    refine ⟨1, bytes "request failed\n", rfl, Nat.le_refl 1, ?_, ?_⟩
    · exact iff_of_false Nat.one_ne_zero fun hr => Bool.false_ne_true hr.1
    · exact iff_of_false (by decide) Bool.false_ne_true
  | true =>
    obtain ⟨s, hcalls, rfl⟩ := hN.returned h hret
    obtain ⟨v, hnest, hv⟩ := hval s cmd
    obtain ⟨code, hexit, hle, hcode⟩ := clientExit_frame hnest
    rw [if_pos rfl, hv]
    refine ⟨code, [], hexit, hle, ?_, iff_of_true rfl rfl⟩
    rw [hcode]
    constructor
    · exact fun herr => ⟨rfl, s, v, hcalls, hv, herr⟩
    · rintro ⟨-, s', v', hcalls', hv', herr⟩
      -- there was one call, and its reply is one value
      rw [hcalls] at hcalls'
      cases hcalls'
      have hsame : (sent v).encode = (sent v').encode := by
        rw [← bodyOf_encode, ← bodyOf_encode, ← hv, ← hv']
      rwa [← Value.head?_encode_iff, hsame, Value.head?_encode_iff]

/-- A handler that answers with the number of its calls. -/
def tallyHandler : Handler Nat := fun n _ => (n + 1, (Value.int n).encode)

/-- A request, its answer, and the two reads of the caller. -/
def oneExchange : List (NetEvent Nat) :=
  [.caller (.count 99), .server (.poll ⟨true, true, false, .data (List.replicate 99 0), .wrote 99, .again⟩),
    .caller (.count 4), .caller (.count 99)]

theorem client_exit_code_tally :
    (∀ s cmd, ∃ v : Value, v.nesting ≤ 64 ∧ (tallyHandler s cmd).2 = v.encode) ∧
    ∃ N : Net Nat,
      oneExchange.foldlM (Net.step tallyHandler) ⟨tcpRpc true [bytes "incr", [1]], { state := 6 }, [], []⟩ = some N ∧
      N.session.calls = [(6, [bytes "incr", [1]])] ∧ N.rpc = .returned true (frameOf (Value.int 6).encode) ∧
      clientExit (some (frameOf (Value.int 6).encode)) = some (0, []) := by
  have hval : ∀ s cmd, ∃ v : Value, v.nesting ≤ 64 ∧ (tallyHandler s cmd).2 = v.encode :=
    fun s _ => ⟨.int s, Nat.zero_le _, rfl⟩
  obtain ⟨N, hrun, hend⟩ := client_exit_code tallyHandler hval 6 true [bytes "incr", [1]] oneExchange
  have hret : N.rpc = .returned true (frameOf (Value.int 6).encode) := by
    have hmap := congrArg (Option.map Net.rpc) hrun
    exact Option.some.inj (hmap.symm.trans (by decide +kernel))
  have hcalls : N.session.calls = [(6, [bytes "incr", [1]])] := by
    have hmap := congrArg (Option.map fun N : Net Nat => N.session.calls) hrun
    exact Option.some.inj (hmap.symm.trans (by decide +kernel))
  obtain ⟨code, text, hexit, -, hcode, htext⟩ := hend _ _ hret
  have hzero : code = 0 := hcode.mpr ⟨rfl, 6, .int 6, hcalls, rfl, fun herr => (by cases herr)⟩
  rw [hzero, htext.mpr rfl] at hexit
  exact ⟨hval, N, hrun, hcalls, hret, hexit⟩

end ApexDB
