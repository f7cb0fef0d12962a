import ApexDB.Lib.Ring
import ApexDB.EventLoop

/-!
# The connections of the event loop

`Table srv l`: the circular list runs through the connections `l`, in the order of their last
activity; they are the ones alive, and `fd2conn` has each at its descriptor. **Three things
happen to `l`**: a new connection is appended (`handle_accept`), one that was active goes to the
end, and one that is destroyed is left out (`conn_destroy`). The order by activity is kept
because what is appended was active at the last reading of the clock.

The three structures of the source refer to one another by addresses and numbers: the list node
is inside the connection, the slot is at its descriptor, and the kernel hands a descriptor out
again as soon as it is closed. A connection that is freed and left in one of them would be a
dangling pointer; `Table` excludes that.
-/

set_option autoImplicit false

namespace ApexDB

open Lib

variable {α σ : Type}

/-! ## 1. `list.h` on rings

`Lib/Ring.lean` has rings over any two functions `next` and `prev`. Here these read the memory,
and a node that was freed has neither.
-/

section DList

variable [DecidableEq α] {mem : DListMem α} {a x : α} {l : List α}

/-- Where `next` leads, from a node that is alive. -/
def nextOf (mem : DListMem α) (a : α) : Option α := (mem a).bind DList.next

def prevOf (mem : DListMem α) (a : α) : Option α := (mem a).bind DList.prev

omit [DecidableEq α] in
theorem isSome_of_nextOf {n : α} (h : nextOf mem a = some n) : (mem a).isSome := by
  cases hm : mem a with
  | none =>
    rw [nextOf, hm] at h
    cases h
  | some d => rfl

theorem setNext_spec (h : (mem a).isSome) (n : α) :
    ∃ mem', setNext mem a n = some mem' ∧ nextOf mem' = Function.update (nextOf mem) a (some n) ∧
      prevOf mem' = prevOf mem ∧ ∀ b, (mem' b).isSome = (mem b).isSome := by
  obtain ⟨d, hd⟩ := Option.isSome_iff_exists.mp h
  refine ⟨_, by rw [setNext, hd]; rfl, ?_, ?_, ?_⟩
  · funext b
    by_cases hb : b = a <;> simp [nextOf, hb]
  · funext b
    by_cases hb : b = a <;> simp [prevOf, hb, hd]
  · intro b
    by_cases hb : b = a <;> simp [hb, hd]

theorem setPrev_spec (h : (mem a).isSome) (p : α) :
    ∃ mem', setPrev mem a p = some mem' ∧ prevOf mem' = Function.update (prevOf mem) a (some p) ∧
      nextOf mem' = nextOf mem ∧ ∀ b, (mem' b).isSome = (mem b).isSome := by
  obtain ⟨d, hd⟩ := Option.isSome_iff_exists.mp h
  refine ⟨_, by rw [setPrev, hd]; rfl, ?_, ?_, ?_⟩
  · funext b
    by_cases hb : b = a <;> simp [prevOf, hb]
  · funext b
    by_cases hb : b = a <;> simp [nextOf, hb, hd]
  · intro b
    by_cases hb : b = a <;> simp [hb, hd]

/-- The idle list: a ring in the memory. -/
def InRing (mem : DListMem α) (a : α) (l : List α) : Prop := LinkRing (nextOf mem) (prevOf mem) a l

omit [DecidableEq α] in
theorem InRing.alive (h : InRing mem a l) (hx : x ∈ a :: l) : (mem x).isSome := by
  obtain ⟨p, n, -, hn, -⟩ := h.exists_links hx
  exact isSome_of_nextOf hn

/-- **`dlist_insert_before`** appends a node that is not in the ring. -/
theorem dlistInsertBefore_spec (h : InRing mem a l) (hx : x ∉ a :: l) (hlive : (mem x).isSome) :
    ∃ mem', dlistInsertBefore mem a x = some mem' ∧ InRing mem' a (l ++ [x]) ∧
      ∀ b, (mem' b).isSome = (mem b).isSome := by
  obtain ⟨p, n, hp, -, hmem, -⟩ := h.exists_links List.mem_cons_self
  obtain ⟨d, hd⟩ := Option.isSome_iff_exists.mp (h.alive List.mem_cons_self)
  have hdp : d.prev = some p := by
    rw [prevOf, hd] at hp
    exact hp
  obtain ⟨m₁, h₁, hn₁, hp₁, hs₁⟩ := setNext_spec (h.alive hmem) x
  have hx₁ : (m₁ x).isSome := by rw [hs₁, hlive]
  obtain ⟨m₂, h₂, hp₂, hn₂, hs₂⟩ := setPrev_spec hx₁ p
  have hx₂ : (m₂ x).isSome := by rw [hs₂, hx₁]
  obtain ⟨m₃, h₃, hn₃, hp₃, hs₃⟩ := setNext_spec hx₂ a
  have ha₃ : (m₃ a).isSome := by rw [hs₃, hs₂, hs₁, h.alive List.mem_cons_self]
  obtain ⟨m₄, h₄, hp₄, hn₄, hs₄⟩ := setPrev_spec ha₃ x
  refine ⟨m₄, ?_, ?_, fun b => by rw [hs₄, hs₃, hs₂, hs₁]⟩
  · simp [dlistInsertBefore, hd, hdp, h₁, h₂, h₃, h₄]
  · have hring := h.insert hx hp
    rw [← hn₁, ← hp₁, ← hn₂, ← hp₂, ← hn₃, ← hp₃, ← hn₄, ← hp₄] at hring
    exact hring

/-- **`dlist_detach`** takes a node out. -/
theorem dlistDetach_spec (h : InRing mem a l) (hx : x ∈ l) :
    ∃ mem', dlistDetach mem x = some mem' ∧ InRing mem' a (l.erase x) ∧
      ∀ b, (mem' b).isSome = (mem b).isSome := by
  have hx' : x ∈ a :: l := List.mem_cons_of_mem _ hx
  obtain ⟨p, n, hp, hn, hmp, hmn⟩ := h.exists_links hx'
  obtain ⟨d, hd⟩ := Option.isSome_iff_exists.mp (h.alive hx')
  have hdp : d.prev = some p := by
    rw [prevOf, hd] at hp
    exact hp
  have hdn : d.next = some n := by
    rw [nextOf, hd] at hn
    exact hn
  obtain ⟨m₁, h₁, hn₁, hp₁, hs₁⟩ := setNext_spec (h.alive hmp) n
  have hn₁' : (m₁ n).isSome := by rw [hs₁, h.alive hmn]
  obtain ⟨m₂, h₂, hp₂, hn₂, hs₂⟩ := setPrev_spec hn₁' p
  refine ⟨m₂, ?_, ?_, fun b => by rw [hs₂, hs₁]⟩
  · simp [dlistDetach, hd, hdp, hdn, h₁, h₂]
  · have hring := h.erase hx hp hn
    rw [← hn₁, ← hp₁, ← hn₂, ← hp₂] at hring
    exact hring

/-- Nodes that are not in the ring may change, come or go. -/
theorem InRing.update (h : InRing mem a l) (hx : x ∉ a :: l) (d : Option (DList α)) :
    InRing (Function.update mem x d) a l := by
  have hne : ∀ y ∈ a :: l, y ≠ x := fun y hy hyx => hx (hyx ▸ hy)
  refine h.congr (fun y hy => ?_) (fun y hy => ?_)
  · rw [nextOf, nextOf, Function.update_of_ne (hne y hy)]
  · rw [prevOf, prevOf, Function.update_of_ne (hne y hy)]

end DList

/-! ## 2. The list, the slots and the order

Each is an invariant of its own, of the connections that can be read and of one other part of
the state; a connection can be added to it, taken out of it, or touched.
-/

theorem idleNode_injective : Function.Injective DAddr.idleNode := fun _ _ h => DAddr.idleNode.inj h

theorem mem_map_idleNode {c : ConnId} {l : List ConnId} :
    DAddr.idleNode c ∈ DAddr.idleList :: l.map .idleNode ↔ c ∈ l := by
  simp

theorem map_erase_idleNode (l : List ConnId) (c : ConnId) :
    (l.map DAddr.idleNode).erase (.idleNode c) = (l.erase c).map .idleNode :=
  (List.map_erase idleNode_injective l).symm

/-- The circular list is well linked and passes the connections `l`, each once; these are the
ones that are alive, and the nodes that are alive are theirs. -/
structure IdleList (links : DListMem DAddr) (read : ConnId → Option LoopConn) (l : List ConnId) : Prop where
  ring : InRing links .idleList (l.map .idleNode)
  live : ∀ c, c ∈ l ↔ (read c).isSome
  nodes : ∀ c, (links (.idleNode c)).isSome ↔ c ∈ l

section IdleList

variable {links : DListMem DAddr} {read read' : ConnId → Option LoopConn} {l : List ConnId} {c : ConnId}
  {conn : LoopConn}

theorem IdleList.nodup (h : IdleList links read l) : l.Nodup :=
  List.Nodup.of_map _ (List.nodup_cons.mp h.ring.nodup).2

theorem IdleList.mem_of_read (h : IdleList links read l) (hread : read c = some conn) : c ∈ l := by
  rw [h.live, hread]
  rfl

theorem IdleList.exists_conn (h : IdleList links read l) (hc : c ∈ l) : ∃ conn, read c = some conn :=
  Option.isSome_iff_exists.mp ((h.live c).mp hc)

theorem IdleList.add (h : IdleList links read l) (hnew : read c = none)
    (hget : ∀ j, read' j = if j = c then some conn else read j) :
    ∃ links', dlistInsertBefore (Function.update links (.idleNode c) (some {})) .idleList (.idleNode c) =
      some links' ∧ IdleList links' read' (l ++ [c]) := by
  have hcl : c ∉ l := by
    rw [h.live, hnew]
    nofun
  have hout : DAddr.idleNode c ∉ DAddr.idleList :: l.map .idleNode := fun hmem =>
    hcl (mem_map_idleNode.mp hmem)
  obtain ⟨links', hins, hring, hsome⟩ := dlistInsertBefore_spec (h.ring.update hout (some {})) hout
    (by rw [Function.update_self]; rfl)
  refine ⟨links', hins, ?_, fun j => ?_, fun j => ?_⟩
  · rw [List.map_append]
    exact hring
  · rw [List.mem_append, List.mem_singleton, h.live, hget]
    by_cases hj : j = c <;> simp [hj]
  · rw [hsome, List.mem_append, List.mem_singleton]
    by_cases hj : j = c
    · simp [hj]
    · rw [Function.update_of_ne (idleNode_injective.ne hj), h.nodes]
      exact (or_iff_left hj).symm

theorem IdleList.remove (h : IdleList links read l) (hc : c ∈ l)
    (hget : ∀ j, read' j = if j = c then none else read j) :
    ∃ links', dlistDetach links (.idleNode c) = some links' ∧
      IdleList (Function.update links' (.idleNode c) none) read' (l.erase c) := by
  have hmem : ∀ j, j ∈ l.erase c ↔ j ≠ c ∧ j ∈ l := fun j => h.nodup.mem_erase_iff
  obtain ⟨links', hdetach, hring, hsome⟩ := dlistDetach_spec h.ring (List.mem_map_of_mem hc)
  rw [map_erase_idleNode] at hring
  refine ⟨links', hdetach, hring.update ?_ none, fun j => ?_, fun j => ?_⟩
  · rw [mem_map_idleNode, hmem]
    exact fun hbad => hbad.1 rfl
  · rw [hmem, h.live, hget]
    by_cases hj : j = c <;> simp [hj]
  · rw [hmem]
    by_cases hj : j = c
    · simp [hj]
    · rw [Function.update_of_ne (idleNode_injective.ne hj), hsome, h.nodes]
      exact (and_iff_right hj).symm

theorem IdleList.touch (h : IdleList links read l) (hc : c ∈ l)
    (hget : ∀ j, read' j = if j = c then some conn else read j) :
    ∃ links₁ links₂, dlistDetach links (.idleNode c) = some links₁ ∧
      dlistInsertBefore links₁ .idleList (.idleNode c) = some links₂ ∧
      IdleList links₂ read' (l.erase c ++ [c]) := by
  have hmem : ∀ j, j ∈ l.erase c ↔ j ≠ c ∧ j ∈ l := fun j => h.nodup.mem_erase_iff
  obtain ⟨links₁, hdetach, hring, hsome⟩ := dlistDetach_spec h.ring (List.mem_map_of_mem hc)
  rw [map_erase_idleNode] at hring
  have hout : DAddr.idleNode c ∉ DAddr.idleList :: (l.erase c).map .idleNode := by
    rw [mem_map_idleNode, hmem]
    exact fun hbad => hbad.1 rfl
  obtain ⟨links₂, hins, hring', hsome'⟩ := dlistInsertBefore_spec hring hout
    (by rw [hsome]; exact (h.nodes c).mpr hc)
  refine ⟨links₁, links₂, hdetach, hins, ?_, fun j => ?_, fun j => ?_⟩
  · rw [List.map_append]
    exact hring'
  · rw [List.mem_append, List.mem_singleton, hmem, h.live, hget]
    by_cases hj : j = c <;> simp [hj]
  · rw [hsome', hsome, h.nodes, List.mem_append, List.mem_singleton, hmem]
    by_cases hj : j = c <;> simp [hj, hc]

end IdleList

/-- `fd2conn` has each connection at its descriptor and nothing else, and the open descriptors
are those of the connections. -/
structure Slots (read : ConnId → Option LoopConn) (fd2conn : List (Option ConnId)) (fds : List Nat) : Prop where
  table : ∀ (fd : Nat) c, fd2conn[fd]? = some (some c) ↔ ∃ conn, read c = some conn ∧ conn.fd = fd
  opened : ∀ fd, fd ∈ fds ↔ ∃ c conn, read c = some conn ∧ conn.fd = fd
  distinct : fds.Nodup

section Slots

variable {read read' : ConnId → Option LoopConn} {fd2conn t : List (Option ConnId)} {fds : List Nat}
  {c : ConnId} {conn : LoopConn}

theorem Slots.fd_inj (h : Slots read fd2conn fds) {d : ConnId} {conn' : LoopConn}
    (hc : read c = some conn) (hd : read d = some conn') (hfd : conn.fd = conn'.fd) : c = d := by
  have h₁ := (h.table conn.fd c).mpr ⟨conn, hc, rfl⟩
  have h₂ := (h.table conn.fd d).mpr ⟨conn', hd, hfd.symm⟩
  rw [h₁] at h₂
  exact Option.some.inj (Option.some.inj h₂)

theorem Slots.lt_length (h : Slots read fd2conn fds) (hc : read c = some conn) :
    conn.fd < fd2conn.length :=
  (List.getElem?_eq_some_iff.mp ((h.table conn.fd c).mpr ⟨conn, hc, rfl⟩)).1

/-- A slot whose descriptor is not open is empty, in a table that is long enough. -/
theorem Slots.free (h : Slots read fd2conn fds) {fd : Nat} (hfd : fd ∉ fds) (hlen : fd < t.length)
    (hsame : ∀ (i : Nat) d, t[i]? = some (some d) ↔ fd2conn[i]? = some (some d)) : t[fd]? = some none := by
  cases hv : t[fd]? with
  | none => exact absurd (List.getElem?_eq_none_iff.mp hv) (Nat.not_le.mpr hlen)
  | some v =>
    cases v with
    | none => rfl
    | some d =>
      rw [hsame, h.table] at hv
      exact absurd ((h.opened fd).mpr ⟨d, hv⟩) hfd

theorem Slots.add (h : Slots read fd2conn fds) (hfd : conn.fd ∉ fds) (hlen : conn.fd < t.length)
    (hsame : ∀ (i : Nat) d, t[i]? = some (some d) ↔ fd2conn[i]? = some (some d)) (hnew : read c = none)
    (hget : ∀ j, read' j = if j = c then some conn else read j) :
    Slots read' (t.set conn.fd (some c)) (conn.fd :: fds) := by
  refine ⟨fun fd j => ?_, fun fd => ?_, List.nodup_cons.mpr ⟨hfd, h.distinct⟩⟩
  · rw [hget]
    by_cases hf : conn.fd = fd
    · subst hf
      rw [List.getElem?_set_self hlen]
      by_cases hj : j = c
      · simp [hj]
      · rw [if_neg hj]
        constructor
        · intro heq
          exact absurd (Option.some.inj (Option.some.inj heq)).symm hj
        · intro hex
          exact absurd ((h.opened conn.fd).mpr ⟨j, hex⟩) hfd
    · rw [List.getElem?_set_ne hf, hsame, h.table]
      by_cases hj : j = c
      · subst hj
        simp [hnew, hf]
      · simp [hj]
  · rw [List.mem_cons, h.opened]
    constructor
    · rintro (rfl | ⟨j, conn', hj, hf⟩)
      · exact ⟨c, conn, by rw [hget, if_pos rfl], rfl⟩
      · refine ⟨j, conn', ?_, hf⟩
        rw [hget, if_neg, hj]
        rintro rfl
        rw [hnew] at hj
        cases hj
    · rintro ⟨j, conn', hj, hf⟩
      rw [hget] at hj
      split at hj
      · cases hj
        exact .inl hf.symm
      · exact .inr ⟨j, conn', hj, hf⟩

theorem Slots.remove (h : Slots read fd2conn fds) (hread : read c = some conn)
    (hget : ∀ j, read' j = if j = c then none else read j) :
    Slots read' (fd2conn.set conn.fd none) (fds.erase conn.fd) := by
  refine ⟨fun fd j => ?_, fun fd => ?_, h.distinct.erase _⟩
  · rw [hget]
    by_cases hfd : conn.fd = fd
    · -- the slot is empty now, and nobody else has the descriptor
      rw [← hfd, List.getElem?_set_self (h.lt_length hread)]
      refine ⟨nofun, fun ⟨conn', hconn', hfd'⟩ => ?_⟩
      split at hconn'
      · cases hconn'
      · rename_i hj
        exact absurd (h.fd_inj hconn' hread hfd') hj
    · rw [List.getElem?_set_ne hfd, h.table]
      by_cases hj : j = c
      · subst hj
        simp [hread, hfd]
      · simp [hj]
  · rw [h.distinct.mem_erase_iff, h.opened]
    constructor
    · rintro ⟨hne, j, conn', hconn', hfd⟩
      refine ⟨j, conn', ?_, hfd⟩
      rw [hget, if_neg, hconn']
      rintro rfl
      rw [hread] at hconn'
      cases hconn'
      exact hne hfd.symm
    · rintro ⟨j, conn', hconn', hfd⟩
      rw [hget] at hconn'
      split at hconn'
      · cases hconn'
      · rename_i hj
        exact ⟨fun heq => hj (h.fd_inj hconn' hread (hfd.trans heq)), j, conn', hconn', hfd⟩

theorem Slots.touch (h : Slots read fd2conn fds) (hread : read c = some conn) {conn' : LoopConn}
    (hfd : conn'.fd = conn.fd) (hget : ∀ j, read' j = if j = c then some conn' else read j) :
    Slots read' fd2conn fds := by
  have hdesc : ∀ j fd, (∃ k, read' j = some k ∧ k.fd = fd) ↔ ∃ k, read j = some k ∧ k.fd = fd := by
    intro j fd
    rw [hget]
    by_cases hj : j = c
    · subst hj
      simp [hread, hfd]
    · simp [hj]
  refine ⟨fun fd j => ?_, fun fd => ?_, h.distinct⟩
  · rw [h.table, hdesc]
  · rw [h.opened]
    exact exists_congr fun j => (hdesc j fd).symm

end Slots

/-- Connections in the order of their last activity, none of which is later than the clock. -/
structure ByActivity (active : ConnId → Nat) (clock : Nat) (l : List ConnId) : Prop where
  sorted : l.Pairwise fun c d => active c ≤ active d
  recent : ∀ c ∈ l, active c ≤ clock

section ByActivity

variable {active active' : ConnId → Nat} {clock clock' : Nat} {l l' : List ConnId} {c : ConnId}

theorem ByActivity.keep (h : ByActivity active clock l) (hsub : l'.Sublist l)
    (hactive : ∀ j ∈ l', active' j = active j) (hclk : clock ≤ clock') : ByActivity active' clock' l' := by
  constructor
  · refine (h.sorted.sublist hsub).imp_of_mem fun {j k} hj hk hle => ?_
    rw [hactive j hj, hactive k hk]
    exact hle
  · intro j hj
    rw [hactive j hj]
    exact Nat.le_trans (h.recent j (hsub.subset hj)) hclk

theorem ByActivity.append (h : ByActivity active clock l) (hc : active c = clock) :
    ByActivity active clock (l ++ [c]) := by
  constructor
  · refine List.pairwise_append.mpr ⟨h.sorted, List.pairwise_singleton _ _, fun j hj k hk => ?_⟩
    rw [List.mem_singleton.mp hk, hc]
    exact h.recent j hj
  · intro j hj
    rcases List.mem_append.mp hj with hj | hj
    · exact h.recent j hj
    · rw [List.mem_singleton.mp hj, hc]

end ByActivity

/-! ## 3. The table

The three invariants together, for one list `l`. Each function of the loop that touches a
connection is one of the operations of section 2 on all three.
-/

def Srv.activeAt (srv : Srv σ) (c : ConnId) : Nat := ((srv.conns.read c).map LoopConn.lastActiveMs).getD 0

/-- **What holds of the connections `l`**, in the order of the idle list. -/
structure Srv.Table (srv : Srv σ) (l : List ConnId) : Prop where
  list : IdleList srv.links srv.conns.read l
  slots : Slots srv.conns.read srv.fd2conn srv.fds
  order : ByActivity srv.activeAt srv.clock l

section Table

variable {srv srv' : Srv σ} {l : List ConnId} {c : ConnId}

theorem srvInit_spec (s : σ) : ∃ srv, srvInit s = some srv ∧ srv.Table [] ∧ srv.state = s := by
  refine ⟨_, rfl, ⟨⟨.single rfl rfl, ?_, ?_⟩, ⟨?_, ?_, List.nodup_nil⟩, ⟨List.Pairwise.nil, nofun⟩⟩, rfl⟩
  · intro c
    simp
  · intro c
    simp
  · intro fd c
    simp
  · intro fd
    simp

/-- **`conn_destroy` takes out one connection**: its node leaves the ring, its slot is cleared,
its descriptor is closed, and the other connections are as they were. -/
theorem connDestroy_spec (h : srv.Table l) {conn : LoopConn} (hread : srv.conns.read c = some conn) :
    ∃ srv', connDestroy srv c = some srv' ∧ srv'.Table (l.erase c) ∧
      (∀ j, srv'.conns.read j = if j = c then none else srv.conns.read j) ∧
      (∀ fd, fd ≠ conn.fd → srv'.fd2conn[fd]? = srv.fd2conn[fd]?) ∧
      srv'.state = srv.state ∧ srv'.clock = srv.clock := by
  obtain ⟨conns, hfree, -, hget⟩ := Arena.free_spec hread
  obtain ⟨links, hdetach, hlist⟩ := h.list.remove (h.list.mem_of_read hread) hget
  refine ⟨{ srv with
      conns := conns, links := Function.update links (.idleNode c) none,
      fd2conn := srv.fd2conn.set conn.fd none, fds := srv.fds.erase conn.fd },
    ?_, ⟨hlist, h.slots.remove hread hget, ?_⟩, hget, ?_, rfl, rfl⟩
  · simp [connDestroy, hread, hdetach, hfree, Nat.not_le.mpr (h.slots.lt_length hread)]
  · refine h.order.keep List.erase_sublist (fun j hj => ?_) (Nat.le_refl _)
    rw [Srv.activeAt, hget, if_neg (h.list.nodup.mem_erase_iff.mp hj).1]
    rfl
  · intro fd hfd
    exact List.getElem?_set_ne hfd.symm

/-- The table after `resize`: long enough, and with the same connections in it. -/
theorem resize_spec (fd2conn : List (Option ConnId)) (fd : Nat) :
    ∃ t, (if fd2conn.length ≤ fd then resizeTo (fd + 1) fd2conn else fd2conn) = t ∧ fd < t.length ∧
      ∀ (i : Nat) d, t[i]? = some (some d) ↔ fd2conn[i]? = some (some d) := by
  refine ⟨_, rfl, ?_⟩
  split
  · rename_i hle
    constructor
    · rw [resizeTo, List.length_append, List.length_replicate]
      omega
    · intro i d
      rw [resizeTo]
      by_cases hi : i < fd2conn.length
      · rw [List.getElem?_append_left hi]
      · rw [List.getElem?_append_right (Nat.le_of_not_lt hi), List.getElem?_replicate,
          List.getElem?_eq_none (Nat.le_of_not_lt hi)]
        split <;> simp
  · rename_i hlt
    exact ⟨Nat.lt_of_not_le hlt, fun _ _ => Iff.rfl⟩

/-- **`handle_accept` appends a connection**, and its assertion holds. -/
theorem handleAccept_spec (h : srv.Table l) {connfd clk : Nat} (hfd : connfd ∉ srv.fds)
    (hclk : srv.clock ≤ clk) :
    ∃ srv', handleAccept connfd clk srv = some srv' ∧ srv'.Table (l ++ [srv.conns.next]) ∧
      (∀ (fd : Nat) c, srv.fd2conn[fd]? = some (some c) → srv'.fd2conn[fd]? = some (some c)) ∧
      srv'.state = srv.state ∧ srv'.clock = clk := by
  generalize hconn : ({ Conn.new with fd := connfd, lastActiveMs := clk } : LoopConn) = conn
  obtain rfl : conn.fd = connfd := by rw [← hconn]
  have hnew : srv.conns.read srv.conns.next = none := Arena.read_next _
  have hget : ∀ j, (srv.conns.alloc conn).1.read j = if j = srv.conns.next then some conn else srv.conns.read j :=
    Arena.read_alloc _ _
  obtain ⟨links, hins, hlist⟩ := h.list.add hnew hget
  obtain ⟨t, ht, hlen, hsame⟩ := resize_spec srv.fd2conn conn.fd
  have hslot := h.slots.free hfd hlen hsame
  refine ⟨{ srv with
      conns := (srv.conns.alloc conn).1, links := links, fd2conn := t.set conn.fd (some srv.conns.next),
      fds := conn.fd :: srv.fds, clock := clk },
    ?_, ⟨hlist, h.slots.add hfd hlen hsame hnew hget, ?_⟩, ?_, rfl, rfl⟩
  · simp only [handleAccept, hconn, Arena.alloc_snd, hins, ht, hslot, Option.bind_eq_bind, Option.bind_some,
      ne_eq, not_true_eq_false, if_false]
    rfl
  · refine (h.order.keep (List.Sublist.refl l) (fun j hj => ?_) hclk).append ?_
    · have hne : j ≠ srv.conns.next := by
        rintro rfl
        rw [h.list.live, hnew] at hj
        cases hj
      rw [Srv.activeAt, hget, if_neg hne]
      rfl
    · rw [Srv.activeAt, hget, if_pos rfl, ← hconn]
      rfl
  · intro fd j hj
    have hne : conn.fd ≠ fd := by
      rintro rfl
      rw [← hsame, hslot] at hj
      cases hj
    show (t.set conn.fd (some srv.conns.next))[fd]? = _
    rw [List.getElem?_set_ne hne, hsame]
    exact hj

/-- **A connection that was active goes to the end of the list.** -/
theorem Srv.Table.touch (h : srv.Table l) {conn : LoopConn} (hread : srv.conns.read c = some conn)
    (conn' : LoopConn) (hfd : conn'.fd = conn.fd) (hclk : srv.clock ≤ conn'.lastActiveMs) (s : σ) :
    ∃ links links' conns, dlistDetach srv.links (.idleNode c) = some links ∧
      dlistInsertBefore links .idleList (.idleNode c) = some links' ∧
      srv.conns.write c conn' = some conns ∧ conns.read c = some conn' ∧
      Srv.Table { srv with state := s, conns := conns, links := links', clock := conn'.lastActiveMs }
        (l.erase c ++ [c]) := by
  obtain ⟨conns, hwrite, -, hget⟩ := Arena.write_spec hread conn'
  obtain ⟨links, links', hdetach, hins, hlist⟩ := h.list.touch (h.list.mem_of_read hread) hget
  have hself : conns.read c = some conn' := by rw [hget, if_pos rfl]
  refine ⟨links, links', conns, hdetach, hins, hwrite, hself, hlist, h.slots.touch hread hfd hget, ?_⟩
  refine (h.order.keep List.erase_sublist (fun j hj => ?_) hclk).append ?_
  · rw [Srv.activeAt, hget, if_neg (h.list.nodup.mem_erase_iff.mp hj).1]
    rfl
  · rw [Srv.activeAt, hself]
    rfl

end Table

end ApexDB
