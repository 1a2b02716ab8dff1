import AesdChar.Lib.Ownership

/-!
# Descriptors and nodes of the connections

What `create_client_thread` acquires and `check_for_finished_client_threads` gives back.
Descriptors and nodes are numbered in the order they are handed out, and no number is handed out
again, so that nothing closed twice goes unnoticed.
-/

namespace AesdChar

open Ownership

/-- An entry of `client_queue`. -/
structure Node where
  connfd : Nat
  taskFinished : Bool
  -- `none` until the device is opened
  fd : Option Nat

structure Resources where
  accepted : Nat
  opened : Nat
  allocated : Nat
  -- open descriptors
  conns : Finset Nat
  fds : Finset Nat
  nodes : Nat → Option Node
  -- every `close (connfd)` so far
  closes : List Nat

namespace Resources

def accept (r : Resources) : Resources :=
  { r with accepted := r.accepted + 1, conns := insert r.accepted r.conns }

/-- A node with its first two fields set. -/
def malloc (r : Resources) (connfd : Nat) : Resources :=
  { r with
    allocated := r.allocated + 1
    nodes := Function.update r.nodes r.allocated (some ⟨connfd, false, none⟩) }

def openDevice (r : Resources) (e : Nat) : Resources :=
  { r with
    opened := r.opened + 1
    fds := insert r.opened r.fds
    nodes := Function.update r.nodes e
      ((r.nodes e).map fun node => { node with fd := some r.opened }) }

def finish (r : Resources) (e : Nat) : Resources :=
  { r with
    nodes := Function.update r.nodes e
      ((r.nodes e).map fun node => { node with taskFinished := true }) }

def free (r : Resources) (e : Nat) : Resources :=
  { r with nodes := Function.update r.nodes e none }

/-- Both descriptors of the node are closed, and it is freed. -/
def reap (r : Resources) (e : Nat) : Resources :=
  match r.nodes e with
  | none => r
  | some node =>
      { r with
        conns := r.conns.erase node.connfd
        closes := r.closes ++ [node.connfd]
        fds := match node.fd with
          | some fd => r.fds.erase fd
          | none => r.fds }.free e

def finished (r : Resources) (e : Nat) : Bool := (r.nodes e).any fun node => node.taskFinished

end Resources

/-! ## Who owns what -/

namespace Resources

/-- The descriptors in the node `e`. -/
def conn (r : Resources) (e : Nat) : Option Nat := (r.nodes e).map Node.connfd
def fd (r : Resources) (e : Nat) : Option Nat := (r.nodes e).bind Node.fd

/-- What is open belongs to a node, each to one, but for a `fresh` connection that has no node
yet; only the node `unopened` has no device descriptor. -/
structure Owned (r : Resources) (fresh unopened : Option Nat) : Prop where
  conns : ∀ c, c ∈ r.conns ↔ fresh = some c ∨ Held r.conn c
  fds : ∀ f, f ∈ r.fds ↔ Held r.fd f
  apart : ∀ c, fresh = some c → ¬ Held r.conn c
  connOnce : Exclusive r.conn
  fdOnce : Exclusive r.fd
  connLt : ∀ c ∈ r.conns, c < r.accepted
  fdLt : ∀ f ∈ r.fds, f < r.opened
  nodeLt : ∀ e, (r.nodes e).isSome = true → e < r.allocated
  opened : ∀ e, (r.nodes e).isSome = true → (r.fd e = none ↔ unopened = some e)
  closes : ∀ c, r.closes.count c = if c < r.accepted ∧ c ∉ r.conns then 1 else 0

variable {r : Resources} {fresh unopened : Option Nat} {e : Nat} {node : Node}

theorem nodes_malloc (r : Resources) (connfd : Nat) : (r.malloc connfd).nodes =
    Function.update r.nodes r.allocated (some ⟨connfd, false, none⟩) := rfl

theorem nodes_free (r : Resources) (e : Nat) :
    (r.free e).nodes = Function.update r.nodes e none := rfl

theorem isSome_malloc {r : Resources} {connfd e : Nat}
    (h : ((r.malloc connfd).nodes e).isSome = true) :
    e = r.allocated ∨ (r.nodes e).isSome = true := by
  by_cases he : e = r.allocated
  · exact Or.inl he
  · rw [nodes_malloc, Function.update_of_ne he] at h
    exact Or.inr h

theorem conn_malloc (r : Resources) (connfd : Nat) :
    (r.malloc connfd).conn = Function.update r.conn r.allocated (some connfd) := by
  funext e
  by_cases h : e = r.allocated
  · simp [conn, malloc, h]
  · simp [conn, malloc, h]

theorem fd_malloc (r : Resources) (connfd : Nat) :
    (r.malloc connfd).fd = Function.update r.fd r.allocated none := by
  funext e
  by_cases h : e = r.allocated
  · simp [fd, malloc, h]
  · simp [fd, malloc, h]

theorem conn_openDevice (r : Resources) (e : Nat) : (r.openDevice e).conn = r.conn := by
  funext e'
  by_cases h : e' = e
  · simp [conn, openDevice, h, Function.comp_def]
  · simp [conn, openDevice, h]

theorem fd_openDevice (h : r.nodes e = some node) :
    (r.openDevice e).fd = Function.update r.fd e (some r.opened) := by
  funext e'
  by_cases he : e' = e
  · simp [fd, openDevice, he, h]
  · simp [fd, openDevice, he]

theorem conn_finish (r : Resources) (e : Nat) : (r.finish e).conn = r.conn := by
  funext e'
  by_cases h : e' = e
  · simp [conn, finish, h, Function.comp_def]
  · simp [conn, finish, h]

theorem fd_finish (r : Resources) (e : Nat) : (r.finish e).fd = r.fd := by
  funext e'
  by_cases h : e' = e
  · cases hn : r.nodes e <;> simp [fd, finish, h, hn]
  · simp [fd, finish, h]

theorem conn_free (r : Resources) (e : Nat) :
    (r.free e).conn = Function.update r.conn e none := by
  funext e'
  by_cases h : e' = e
  · simp [conn, free, h]
  · simp [conn, free, h]

theorem fd_free (r : Resources) (e : Nat) : (r.free e).fd = Function.update r.fd e none := by
  funext e'
  by_cases h : e' = e
  · simp [fd, free, h]
  · simp [fd, free, h]

theorem Owned.accept (h : Owned r none unopened) : Owned r.accept (some r.accepted) unopened where
  conns := by
    intro c
    show c ∈ insert r.accepted r.conns ↔ some r.accepted = some c ∨ Held r.conn c
    rw [Finset.mem_insert, h.conns c, Option.some.injEq, eq_comm]
    simp
  fds := h.fds
  apart := by
    intro c hc hheld
    have := h.connLt c ((h.conns c).mpr (Or.inr hheld))
    have := Option.some.inj hc
    omega
  connOnce := h.connOnce
  fdOnce := h.fdOnce
  connLt := by
    intro c hc
    show c < r.accepted + 1
    rcases Finset.mem_insert.mp hc with rfl | hc
    · omega
    · have := h.connLt c hc
      omega
  fdLt := h.fdLt
  nodeLt := h.nodeLt
  opened := h.opened
  closes := by
    intro c
    have hclosed := h.closes c
    show r.closes.count c = if c < r.accepted + 1 ∧ c ∉ insert r.accepted r.conns then 1 else 0
    rw [hclosed]
    apply if_congr _ rfl rfl
    rw [Finset.mem_insert, not_or, ← and_assoc]
    apply and_congr_left
    intro _
    omega

theorem Owned.unused (h : Owned r fresh unopened) : r.nodes r.allocated = none := by
  rw [Option.eq_none_iff_forall_ne_some]
  intro node hn
  have := h.nodeLt r.allocated (by rw [hn]; rfl)
  omega

theorem Owned.malloc {c : Nat} (h : Owned r (some c) none) :
    Owned (r.malloc c) none (some r.allocated) := by
  have hconn : r.conn r.allocated = none := by rw [conn, h.unused]; rfl
  have hfd : r.fd r.allocated = none := by rw [fd, h.unused]; rfl
  have hsame : (r.malloc c).fd = r.fd := by
    rw [fd_malloc, ← hfd, Function.update_eq_self]
  refine ⟨?_, ?_, ?_, ?_, ?_, h.connLt, h.fdLt, ?_, ?_, h.closes⟩
  · intro c'
    rw [conn_malloc, held_give hconn]
    show c' ∈ r.conns ↔ _
    rw [h.conns c', Option.some.injEq]
    simp
  · rw [hsame]
    exact h.fds
  · exact fun c' hc => absurd hc (Option.some_ne_none c').symm
  · rw [conn_malloc]
    exact h.connOnce.give (h.apart c rfl)
  · rw [hsame]
    exact h.fdOnce
  · intro e he
    show e < r.allocated + 1
    rcases isSome_malloc he with rfl | hold
    · omega
    · have := h.nodeLt e hold
      omega
  · intro e he
    rw [hsame]
    rcases isSome_malloc he with rfl | hold
    · exact iff_of_true hfd rfl
    · have hlt := h.nodeLt e hold
      rw [h.opened e hold]
      apply iff_of_false (Option.some_ne_none e).symm
      intro he
      have := Option.some.inj he
      omega

theorem isSome_openDevice (r : Resources) (e e' : Nat) :
    ((r.openDevice e).nodes e').isSome = (r.nodes e').isSome := by
  by_cases h : e' = e
  · simp [openDevice, h]
  · simp [openDevice, h]

theorem isSome_finish (r : Resources) (e e' : Nat) :
    ((r.finish e).nodes e').isSome = (r.nodes e').isSome := by
  by_cases h : e' = e
  · simp [finish, h]
  · simp [finish, h]

theorem Owned.openDevice (h : Owned r none (some e)) (hn : r.nodes e = some node) :
    Owned (r.openDevice e) none none := by
  have hfd : r.fd e = none := (h.opened e (by rw [hn]; rfl)).mpr rfl
  have hnew : ¬ Held r.fd r.opened := by
    intro hheld
    have := h.fdLt r.opened ((h.fds r.opened).mpr hheld)
    omega
  refine ⟨?_, ?_, ?_, ?_, ?_, h.connLt, ?_, ?_, ?_, h.closes⟩
  · rw [conn_openDevice]
    exact h.conns
  · intro f
    rw [fd_openDevice hn, held_give hfd]
    show f ∈ insert r.opened r.fds ↔ _
    rw [Finset.mem_insert, h.fds f, eq_comm]
  · exact fun c hc => absurd hc (Option.some_ne_none c).symm
  · rw [conn_openDevice]
    exact h.connOnce
  · rw [fd_openDevice hn]
    exact h.fdOnce.give hnew
  · intro f hf
    show f < r.opened + 1
    rcases Finset.mem_insert.mp hf with rfl | hf
    · omega
    · have := h.fdLt f hf
      omega
  · intro e' he'
    rw [isSome_openDevice] at he'
    exact h.nodeLt e' he'
  · intro e' he'
    rw [isSome_openDevice] at he'
    rw [fd_openDevice hn]
    by_cases heq : e' = e
    · rw [heq, Function.update_self]
      exact iff_of_false (Option.some_ne_none _) (Option.some_ne_none e).symm
    · rw [Function.update_of_ne heq, h.opened e' he']
      exact iff_of_false (fun he => heq (Option.some.inj he).symm) (Option.some_ne_none e').symm

theorem Owned.finish (h : Owned r fresh unopened) (e : Nat) :
    Owned (r.finish e) fresh unopened := by
  refine ⟨?_, ?_, ?_, ?_, ?_, h.connLt, h.fdLt, ?_, ?_, h.closes⟩
  · rw [conn_finish]
    exact h.conns
  · rw [fd_finish]
    exact h.fds
  · rw [conn_finish]
    exact h.apart
  · rw [conn_finish]
    exact h.connOnce
  · rw [fd_finish]
    exact h.fdOnce
  · intro e' he'
    rw [isSome_finish] at he'
    exact h.nodeLt e' he'
  · intro e' he'
    rw [isSome_finish] at he'
    rw [fd_finish]
    exact h.opened e' he'

theorem isSome_free (r : Resources) (e e' : Nat) :
    ((r.free e).nodes e').isSome = true ↔ e' ≠ e ∧ (r.nodes e').isSome = true := by
  by_cases he : e' = e
  · simp [nodes_free, he]
  · simp [nodes_free, he]

theorem isSome_reap (hn : r.nodes e = some node) (e' : Nat) :
    ((r.reap e).nodes e').isSome = true ↔ e' ≠ e ∧ (r.nodes e').isSome = true := by
  rw [reap, hn]
  exact isSome_free _ e e'

/-- A node that has been opened holds a device descriptor. -/
theorem Owned.exists_fd (h : Owned r fresh unopened) (hn : r.nodes e = some node)
    (ho : unopened ≠ some e) : ∃ f, node.fd = some f := by
  have hopen := (h.opened e (by rw [hn]; rfl)).not.mpr ho
  rw [fd, hn] at hopen
  exact Option.ne_none_iff_exists'.mp hopen

theorem reap_eq {f : Nat} (hn : r.nodes e = some node) (hf : node.fd = some f) :
    r.reap e =
      { r with
        conns := r.conns.erase node.connfd
        closes := r.closes ++ [node.connfd]
        fds := r.fds.erase f }.free e := by
  rw [reap, hn]
  dsimp only
  rw [hf]

/-- Closing an open connection counts it once. -/
theorem Owned.count_closed (h : Owned r fresh unopened) {c : Nat} (hc : c ∈ r.conns) (c' : Nat) :
    (r.closes ++ [c]).count c' = if c' < r.accepted ∧ c' ∉ r.conns.erase c then 1 else 0 := by
  rw [List.count_append, h.closes c']
  by_cases heq : c' = c
  · -- open until now, and so not closed before
    have hlt := h.connLt c hc
    simp [heq, hc, hlt]
  · have hzero : List.count c' [c] = 0 :=
      List.count_eq_zero.mpr fun hin => heq (List.mem_singleton.mp hin)
    rw [hzero, Nat.add_zero]
    simp [heq]

theorem Owned.reap (h : Owned r none none) (hn : r.nodes e = some node) :
    Owned (r.reap e) none none := by
  obtain ⟨f, hf⟩ := h.exists_fd hn (Option.some_ne_none e).symm
  have hconn : r.conn e = some node.connfd := by rw [conn, hn]; rfl
  have hfd : r.fd e = some f := by rw [fd, hn]; exact hf
  rw [reap_eq hn hf]
  refine ⟨?_, ?_, ?_, ?_, ?_, ?_, ?_, ?_, ?_, ?_⟩
  · intro c
    rw [conn_free]
    show c ∈ r.conns.erase node.connfd ↔ none = some c ∨ Held (Function.update r.conn e none) c
    rw [Finset.mem_erase, held_drop h.connOnce hconn, h.conns c]
    simp
  · intro f'
    rw [fd_free]
    show f' ∈ r.fds.erase f ↔ Held (Function.update r.fd e none) f'
    rw [Finset.mem_erase, held_drop h.fdOnce hfd, h.fds f']
  · exact fun c hc => absurd hc (Option.some_ne_none c).symm
  · rw [conn_free]
    exact h.connOnce.drop
  · rw [fd_free]
    exact h.fdOnce.drop
  · exact fun c hc => h.connLt c (Finset.mem_of_mem_erase hc)
  · exact fun f' hf' => h.fdLt f' (Finset.mem_of_mem_erase hf')
  · exact fun e' he' => h.nodeLt e' ((isSome_free _ e e').mp he').2
  · intro e' he'
    obtain ⟨hne, hold⟩ := (isSome_free _ e e').mp he'
    rw [fd_free, Function.update_of_ne hne]
    exact h.opened e' hold
  · exact h.count_closed ((h.conns _).mpr (Or.inr ⟨e, hconn⟩))

end Resources

end AesdChar
