import AesdChar.ConnectionResources
import AesdChar.Lib.Runs

/-!
# The queue of connections

The accept loop of `main`, with `create_client_thread` and `check_for_finished_client_threads`,
and the threads of the connections, each at its own pace.
-/

namespace AesdChar

open Ownership

/-- `process_client_connection`, from its start to its exit. -/
inductive ThreadPc where
  -- up to the `pthread_mutex_lock` behind `cleanup`
  | running
  | locked
  | flagged
  | unlocked
  | exited
deriving DecidableEq

/-- The next statement of `main`. -/
inductive MainPc where
  | loop
  -- in `create_client_thread`
  | malloc (connfd : Nat)
  | openDevice (e : Nat)
  | pthreadCreate (e : Nat)
  | lockQueue (e : Nat)
  | insertTail (e : Nat)
  -- about to call `check_for_finished_client_threads`, in the loop or behind it
  | check (draining : Bool)
  -- in it, with the rest of the queue and the count
  | visit (draining : Bool) (rest : List Nat) (outstandingCons : Nat)
  | exited

inductive Owner where
  | main
  | client (e : Nat)
deriving DecidableEq

structure Server where
  main : MainPc
  -- who holds `queue_lock`
  lock : Option Owner
  queue : List Nat
  threads : Nat → Option ThreadPc
  res : Resources

inductive Accepted where
  | conn
  | again
  | error
  -- a signal has cleared `run_connections`
  | stopped

inductive ServerTurn where
  | accept (result : Accepted)
  -- the next statement of `main`; `ok` when what it calls succeeds
  | main (ok : Bool)
  | client (e : Nat)

namespace Server

def accept (s : Server) : Accepted → Server
  | .conn => { s with main := .malloc s.res.accepted, res := s.res.accept }
  | .again => { s with main := .check false }
  | .error => { s with main := .check true }
  | .stopped => { s with main := .check true }

def mainStep (s : Server) (ok : Bool) : Server :=
  match s.main with
  | .loop => s
  | .malloc connfd =>
      if ok then { s with main := .openDevice s.res.allocated, res := s.res.malloc connfd }
      else { s with main := .check false }
  | .openDevice e =>
      if ok then { s with main := .pthreadCreate e, res := s.res.openDevice e }
      else { s with main := .check false }
  | .pthreadCreate e =>
      if ok then
        { s with main := .lockQueue e, threads := Function.update s.threads e (some .running) }
      else { s with main := .check false, res := s.res.free e }
  | .lockQueue e =>
      if s.lock = none then { s with main := .insertTail e, lock := some .main } else s
  | .insertTail e => { s with main := .check false, lock := none, queue := s.queue ++ [e] }
  | .check draining =>
      if s.lock = none then { s with main := .visit draining s.queue 0, lock := some .main }
      else s
  | .visit draining [] outstandingCons =>
      { s with
        lock := none
        main :=
          if draining then (if outstandingCons = 0 then .exited else .check true) else .loop }
  | .visit draining (e :: rest) outstandingCons =>
      if s.res.finished e then
        -- `pthread_join` waits for the exit; what follows it happens under the lock
        if s.threads e = some .exited then
          { s with
            main := .visit draining rest outstandingCons
            queue := s.queue.erase e
            res := s.res.reap e }
        else s
      else { s with main := .visit draining rest (outstandingCons + 1) }
  | .exited => s

/-- A statement of a thread that is through with its receive loop. -/
def clientStep (s : Server) (e : Nat) : Server :=
  match s.threads e with
  | some .running =>
      if s.lock = none then
        { s with lock := some (.client e), threads := Function.update s.threads e (some .locked) }
      else s
  | some .locked =>
      { s with
        res := s.res.finish e
        threads := Function.update s.threads e (some .flagged) }
  | some .flagged =>
      { s with lock := none, threads := Function.update s.threads e (some .unlocked) }
  | some .unlocked => { s with threads := Function.update s.threads e (some .exited) }
  | some .exited => s
  | none => s

def step (s : Server) : ServerTurn → Server
  | .accept result =>
      match s.main with
      | .loop => s.accept result
      | _ => s
  | .main ok => s.mainStep ok
  | .client e => s.clientStep e

/-- Listening, with nobody connected. -/
def start : Server where
  main := .loop
  lock := none
  queue := []
  threads := fun _ => none
  res := ⟨0, 0, 0, ∅, ∅, fun _ => none, []⟩

/-- `main` is in neither of the two functions. -/
def Outside (s : Server) : Prop :=
  match s.main with
  | .loop => True
  | .check _ => True
  | .exited => True
  | _ => False

/-- The thread of the node has not set `task_finished`. -/
def Unfinished (s : Server) (e : Nat) : Prop :=
  s.threads e = some .running ∨ s.threads e = some .locked

/-- Outside of the two functions everything open or allocated belongs to a node in the queue, a
thread that has not finished has all it uses, and at the end each connection was closed once. -/
structure Accounted (s : Server) : Prop where
  conns : s.Outside → ∀ c, c ∈ s.res.conns ↔
    ∃ e ∈ s.queue, ∃ node, s.res.nodes e = some node ∧ node.connfd = c
  fds : s.Outside → ∀ f, f ∈ s.res.fds ↔
    ∃ e ∈ s.queue, ∃ node, s.res.nodes e = some node ∧ node.fd = some f
  nodes : s.Outside → ∀ e, (s.res.nodes e).isSome = true ↔ e ∈ s.queue
  inUse : ∀ e, s.Unfinished e → ∃ node f, s.res.nodes e = some node ∧
    node.connfd ∈ s.res.conns ∧ node.fd = some f ∧ f ∈ s.res.fds
  closedOnce : s.main = .exited → ∀ c < s.res.accepted, s.res.closes.count c = 1

end Server

/-- No allocation, no open and no creation of a thread fails. -/
def ServerTurn.Succeeds (s : Server) : ServerTurn → Prop
  | .main false =>
      match s.main with
      | .malloc _ => False
      | .openDevice _ => False
      | .pthreadCreate _ => False
      | _ => True
  | _ => True

/-! ## The server -/

/-- An accepted connection without a node. -/
def MainPc.fresh : MainPc → Option Nat
  | .malloc connfd => some connfd
  | _ => none

/-- The node of `create_client_thread`, until it is in the queue. -/
def MainPc.pending : MainPc → Option Nat
  | .openDevice e => some e
  | .pthreadCreate e => some e
  | .lockQueue e => some e
  | .insertTail e => some e
  | _ => none

def MainPc.unopened : MainPc → Option Nat
  | .openDevice e => some e
  | _ => none

/-- Where the walk over the queue is: it has counted the nodes it left there. -/
def MainPc.Walks (queue : List Nat) : MainPc → Prop
  | .visit _ rest outstandingCons =>
      rest.Nodup ∧ (∀ e ∈ rest, e ∈ queue) ∧ outstandingCons + rest.length = queue.length
  | .exited => queue = []
  | _ => True

namespace Server

structure ServerInv (s : Server) : Prop where
  owned : s.res.Owned s.main.fresh s.main.unopened
  nodup : s.queue.Nodup
  nodes : ∀ e, (s.res.nodes e).isSome = true ↔ e ∈ s.queue ∨ s.main.pending = some e
  apart : ∀ e, s.main.pending = some e → e ∉ s.queue
  inUse : ∀ e, s.Unfinished e → (s.res.nodes e).isSome = true ∧ s.main.unopened ≠ some e
  walks : s.main.Walks s.queue

theorem start_inv : ServerInv start where
  owned :=
    { conns := fun c => by
        apply iff_of_false (Finset.notMem_empty c)
        rintro (h | h)
        · exact absurd h (Option.some_ne_none c).symm
        · exact not_held_none c h
      fds := fun f => iff_of_false (Finset.notMem_empty f) (not_held_none f)
      apart := fun c h => absurd h (Option.some_ne_none c).symm
      connOnce := exclusive_none
      fdOnce := exclusive_none
      connLt := fun c h => absurd h (Finset.notMem_empty c)
      fdLt := fun f h => absurd h (Finset.notMem_empty f)
      nodeLt := fun _ h => Bool.noConfusion h
      opened := fun _ h => Bool.noConfusion h
      closes := fun _ => (if_neg fun h => absurd h.1 (Nat.not_lt_zero _)).symm }
  nodup := List.nodup_nil
  nodes := fun e => iff_of_false Bool.false_ne_true fun h =>
    h.elim List.not_mem_nil (Option.some_ne_none e).symm
  apart := fun _ _ => List.not_mem_nil
  inUse := fun e h => h.elim (fun h => absurd h (Option.some_ne_none _).symm)
    fun h => absurd h (Option.some_ne_none _).symm
  walks := trivial

section

variable {s : Server}

theorem pending_of_outside (h : s.Outside) :
    s.main.pending = none ∧ s.main.fresh = none ∧ s.main.unopened = none := by
  unfold Outside at h
  cases hm : s.main with
  | loop => exact ⟨rfl, rfl, rfl⟩
  | check => exact ⟨rfl, rfl, rfl⟩
  | exited => exact ⟨rfl, rfl, rfl⟩
  | _ => rw [hm] at h; exact h.elim

theorem ServerInv.nodes_outside (h : ServerInv s) (ho : s.Outside) (e : Nat) :
    (s.res.nodes e).isSome = true ↔ e ∈ s.queue := by
  rw [h.nodes e, (pending_of_outside ho).1]
  simp

theorem ServerInv.accounted (h : ServerInv s) : Accounted s where
  conns := by
    intro ho c
    rw [h.owned.conns c, (pending_of_outside ho).2.1]
    constructor
    · rintro (hc | ⟨e, he⟩)
      · exact absurd hc (Option.some_ne_none c).symm
      · obtain ⟨node, hn, hc⟩ := Option.map_eq_some_iff.mp he
        exact ⟨e, (h.nodes_outside ho e).mp (by rw [hn]; rfl), node, hn, hc⟩
    · rintro ⟨e, _, node, hn, rfl⟩
      exact Or.inr ⟨e, by rw [Resources.conn, hn]; rfl⟩
  fds := by
    intro ho f
    rw [h.owned.fds f]
    constructor
    · rintro ⟨e, he⟩
      obtain ⟨node, hn, hf⟩ := Option.bind_eq_some_iff.mp he
      exact ⟨e, (h.nodes_outside ho e).mp (by rw [hn]; rfl), node, hn, hf⟩
    · rintro ⟨e, _, node, hn, hf⟩
      exact ⟨e, by rw [Resources.fd, hn]; exact hf⟩
  nodes := h.nodes_outside
  inUse := by
    intro e he
    obtain ⟨hsome, hopen⟩ := h.inUse e he
    obtain ⟨node, hn⟩ := Option.isSome_iff_exists.mp hsome
    obtain ⟨f, hf⟩ := h.owned.exists_fd hn hopen
    refine ⟨node, f, hn, ?_, hf, (h.owned.fds f).mpr ⟨e, by rw [Resources.fd, hn]; exact hf⟩⟩
    exact (h.owned.conns _).mpr (Or.inr ⟨e, by rw [Resources.conn, hn]; rfl⟩)
  closedOnce := by
    intro hm c hc
    have hnone : ∀ e, s.res.nodes e = none := by
      intro e
      have hempty : s.queue = [] := by
        have := h.walks
        rwa [hm] at this
      have hno := (h.nodes_outside (by unfold Outside; rw [hm]; trivial) e).not.mpr (by
        rw [hempty]
        exact List.not_mem_nil)
      rwa [Option.not_isSome_iff_eq_none] at hno
    have hclosed : c ∉ s.res.conns := by
      rw [h.owned.conns c, hm]
      rintro (hf | ⟨e, he⟩)
      · exact absurd hf (Option.some_ne_none c).symm
      · rw [Resources.conn, hnone e] at he
        exact absurd he (Option.some_ne_none c).symm
    rw [h.owned.closes c, if_pos ⟨hc, hclosed⟩]

/-! ## Steps -/

theorem unfinished_update {e e' : Nat} {pc : ThreadPc} {s' : Server}
    (hs : s'.threads = Function.update s.threads e (some pc)) (h : s'.Unfinished e') :
    (e' = e ∧ (pc = .running ∨ pc = .locked)) ∨ s.Unfinished e' := by
  unfold Unfinished at h
  rw [hs] at h
  by_cases he : e' = e
  · rw [he, Function.update_self, Option.some.injEq, Option.some.injEq] at h
    exact Or.inl ⟨he, h⟩
  · rw [Function.update_of_ne he] at h
    exact Or.inr h

theorem ServerInv.accept (h : ServerInv s) (hm : s.main = .loop) (result : Accepted) :
    ServerInv (s.accept result) := by
  obtain ⟨howned, hnodup, hnodes, -, hinUse, -⟩ := h
  rw [hm] at howned hnodes hinUse
  have hnone : ∀ e, MainPc.loop.unopened ≠ some e := fun e => (Option.some_ne_none e).symm
  cases result with
  | conn =>
      exact ⟨howned.accept, hnodup, hnodes, fun e he => absurd he (Option.some_ne_none e).symm,
        hinUse, trivial⟩
  | again =>
      exact ⟨howned, hnodup, hnodes, fun e he => absurd he (Option.some_ne_none e).symm,
        hinUse, trivial⟩
  | error =>
      exact ⟨howned, hnodup, hnodes, fun e he => absurd he (Option.some_ne_none e).symm,
        hinUse, trivial⟩
  | stopped =>
      exact ⟨howned, hnodup, hnodes, fun e he => absurd he (Option.some_ne_none e).symm,
        hinUse, trivial⟩

/-- A thread moves on, with all that it uses in place until it has finished. -/
theorem ServerInv.thread (h : ServerInv s) {e : Nat} {pc : ThreadPc}
    (hpc : pc = .running ∨ pc = .locked →
      (s.res.nodes e).isSome = true ∧ s.main.unopened ≠ some e) (lock : Option Owner) :
    ServerInv { s with lock := lock, threads := Function.update s.threads e (some pc) } where
  owned := h.owned
  nodup := h.nodup
  nodes := h.nodes
  apart := h.apart
  inUse := by
    intro e' he'
    rcases unfinished_update rfl he' with ⟨rfl, hu⟩ | hu
    · exact hpc hu
    · exact h.inUse e' hu
  walks := h.walks

theorem ServerInv.finish (h : ServerInv s) (e : Nat) :
    ServerInv { s with res := s.res.finish e } where
  owned := h.owned.finish e
  nodup := h.nodup
  nodes := by
    intro e'
    rw [Resources.isSome_finish]
    exact h.nodes e'
  apart := h.apart
  inUse := by
    intro e' he'
    rw [Resources.isSome_finish]
    exact h.inUse e' he'
  walks := h.walks

theorem ServerInv.client (h : ServerInv s) (e : Nat) : ServerInv (s.clientStep e) := by
  unfold clientStep
  cases ht : s.threads e with
  | none => exact h
  | some pc =>
      cases pc with
      | running =>
          dsimp only
          split
          · exact h.thread (fun _ => h.inUse e (Or.inl ht)) _
          · exact h
      | locked => exact (h.finish e).thread (fun hu => by simp at hu) s.lock
      | flagged => exact h.thread (fun hu => by simp at hu) none
      | unlocked => exact h.thread (fun hu => by simp at hu) s.lock
      | exited => exact h

/-- `main` goes on, with the same node in its hands. -/
theorem ServerInv.goto (h : ServerInv s) (next : MainPc) {main : MainPc} (hm : s.main = main)
    (hf : next.fresh = main.fresh) (hp : next.pending = main.pending)
    (hu : next.unopened = main.unopened) (hw : next.Walks s.queue) (lock : Option Owner) :
    ServerInv { s with main := next, lock := lock } where
  owned := by
    show s.res.Owned next.fresh next.unopened
    rw [hf, hu, ← hm]
    exact h.owned
  nodup := h.nodup
  nodes := by
    intro e
    show (s.res.nodes e).isSome = true ↔ e ∈ s.queue ∨ next.pending = some e
    rw [hp, ← hm]
    exact h.nodes e
  apart := by
    intro e he
    apply h.apart e
    rw [hm, ← hp]
    exact he
  inUse := by
    intro e he
    show _ ∧ next.unopened ≠ some e
    rw [hu, ← hm]
    exact h.inUse e he
  walks := hw

/-- The call is over: `main` is back in the loop, calls again, or leaves. -/
theorem walk_over (draining : Bool) (outstandingCons : Nat) {next : MainPc}
    (hnext : next =
      if draining then (if outstandingCons = 0 then .exited else .check true) else .loop) :
    next.fresh = none ∧ next.pending = none ∧ next.unopened = none ∧
      ∀ queue : List Nat, outstandingCons = queue.length → next.Walks queue := by
  rw [hnext]
  cases draining with
  | false => exact ⟨rfl, rfl, rfl, fun _ _ => trivial⟩
  | true =>
      rw [if_pos rfl]
      by_cases hzero : outstandingCons = 0
      · rw [if_pos hzero]
        refine ⟨rfl, rfl, rfl, fun queue hcount => ?_⟩
        exact List.length_eq_zero_iff.mp (hcount.symm.trans hzero)
      · rw [if_neg hzero]
        exact ⟨rfl, rfl, rfl, fun _ _ => trivial⟩

theorem ServerInv.malloc (h : ServerInv s) {connfd : Nat} (hm : s.main = .malloc connfd) :
    ServerInv { s with main := .openDevice s.res.allocated, res := s.res.malloc connfd } := by
  obtain ⟨howned, hnodup, hnodes, -, hinUse, -⟩ := h
  rw [hm] at howned hnodes
  have hold : ∀ e, (s.res.nodes e).isSome = true ↔ e ∈ s.queue := by
    intro e
    rw [hnodes e]
    simp [MainPc.pending]
  have hnew : s.res.allocated ∉ s.queue := by
    rw [← hold, howned.unused]
    exact Bool.false_ne_true
  have hsome : ∀ e, (s.res.nodes e).isSome = true →
      ((s.res.malloc connfd).nodes e).isSome = true := by
    intro e he
    by_cases heq : e = s.res.allocated
    · simp [Resources.nodes_malloc, heq]
    · rwa [Resources.nodes_malloc, Function.update_of_ne heq]
  refine ⟨howned.malloc, hnodup, ?_, ?_, ?_, trivial⟩
  · intro e
    constructor
    · intro he
      rcases Resources.isSome_malloc he with rfl | he
      · exact Or.inr rfl
      · exact Or.inl ((hold e).mp he)
    · rintro (he | he)
      · exact hsome e ((hold e).mpr he)
      · rw [← Option.some.inj he]
        simp [Resources.nodes_malloc]
  · intro e he
    rw [← Option.some.inj he]
    exact hnew
  · intro e he
    obtain ⟨hn, _⟩ := hinUse e he
    refine ⟨hsome e hn, ?_⟩
    intro heq
    have := howned.nodeLt e hn
    have := Option.some.inj heq
    omega

theorem ServerInv.pendingNode (h : ServerInv s) {e : Nat} (hp : s.main.pending = some e) :
    (s.res.nodes e).isSome = true := (h.nodes e).mpr (Or.inr hp)

theorem ServerInv.openDevice (h : ServerInv s) {e : Nat} (hm : s.main = .openDevice e) :
    ServerInv { s with main := .pthreadCreate e, res := s.res.openDevice e } := by
  obtain ⟨node, hn⟩ := Option.isSome_iff_exists.mp (h.pendingNode (by rw [hm]; rfl))
  obtain ⟨howned, hnodup, hnodes, hapart, hinUse, -⟩ := h
  rw [hm] at howned hnodes hapart
  refine ⟨howned.openDevice hn, hnodup, ?_, hapart, ?_, trivial⟩
  · intro e'
    rw [Resources.isSome_openDevice]
    exact hnodes e'
  · intro e' he'
    rw [Resources.isSome_openDevice]
    exact ⟨(hinUse e' he').1, (Option.some_ne_none e').symm⟩

theorem ServerInv.insertTail (h : ServerInv s) {e : Nat} (hm : s.main = .insertTail e) :
    ServerInv { s with main := .check false, lock := none, queue := s.queue ++ [e] } := by
  obtain ⟨howned, hnodup, hnodes, hapart, hinUse, -⟩ := h
  rw [hm] at howned hnodes hapart hinUse
  refine ⟨howned, ?_, ?_, fun e he => absurd he (Option.some_ne_none e).symm, hinUse, trivial⟩
  · rw [List.nodup_append]
    refine ⟨hnodup, List.nodup_singleton e, ?_⟩
    rintro a ha b hb rfl
    rw [List.mem_singleton.mp hb] at ha
    exact hapart e rfl ha
  · intro e'
    rw [hnodes e', List.mem_append, List.mem_singleton]
    simp [MainPc.pending, eq_comm]

theorem ServerInv.reap (h : ServerInv s) {draining : Bool} {e : Nat} {rest : List Nat}
    {outstandingCons : Nat} (hm : s.main = .visit draining (e :: rest) outstandingCons)
    (ht : s.threads e = some .exited) :
    ServerInv { s with
      main := .visit draining rest outstandingCons
      queue := s.queue.erase e
      res := s.res.reap e } := by
  obtain ⟨howned, hnodup, hnodes, -, hinUse, hwalks⟩ := h
  rw [hm] at howned hnodes hwalks
  obtain ⟨hrest, hsub, hcount⟩ := hwalks
  have hmem := hsub e List.mem_cons_self
  obtain ⟨node, hn⟩ := Option.isSome_iff_exists.mp ((hnodes e).mpr (Or.inl hmem))
  refine ⟨howned.reap hn, hnodup.erase e, ?_, fun e he => absurd he (Option.some_ne_none e).symm,
    ?_, (List.nodup_cons.mp hrest).2, ?_, ?_⟩
  · intro e'
    rw [Resources.isSome_reap hn, hnodup.mem_erase_iff, hnodes e']
    simp [MainPc.pending]
  · intro e' he'
    obtain ⟨hsome, _⟩ := hinUse e' he'
    refine ⟨(Resources.isSome_reap hn e').mpr ⟨?_, hsome⟩, (Option.some_ne_none e').symm⟩
    rintro rfl
    unfold Unfinished at he'
    rw [ht] at he'
    simp at he'
  · intro e' he'
    rw [hnodup.mem_erase_iff]
    refine ⟨?_, hsub e' (List.mem_cons_of_mem _ he')⟩
    rintro rfl
    exact (List.nodup_cons.mp hrest).1 he'
  · have hpos := List.length_pos_of_mem hmem
    rw [List.length_cons] at hcount
    rw [List.length_erase_of_mem hmem]
    omega

theorem ServerInv.visit (h : ServerInv s) {draining : Bool} {rest : List Nat}
    {outstandingCons : Nat} (hm : s.main = .visit draining rest outstandingCons) (ok : Bool) :
    ServerInv (s.mainStep ok) := by
  have hwalks := h.walks
  rw [hm] at hwalks
  obtain ⟨hrest, hsub, hcount⟩ := hwalks
  rw [mainStep, hm]
  cases rest with
  | nil =>
      rw [List.length_nil, Nat.add_zero] at hcount
      obtain ⟨hf, hp, hu, hw⟩ := walk_over draining outstandingCons rfl
      exact h.goto _ hm hf hp hu (hw s.queue hcount) none
  | cons e rest =>
      dsimp only
      split
      · split
        · rename_i _ ht
          exact h.reap hm ht
        · exact h
      · rw [List.length_cons] at hcount
        apply h.goto (.visit draining rest (outstandingCons + 1)) hm rfl rfl rfl
        refine ⟨(List.nodup_cons.mp hrest).2,
          fun e' he' => hsub e' (List.mem_cons_of_mem _ he'), ?_⟩
        omega

theorem ServerInv.main (h : ServerInv s) {ok : Bool}
    (hok : (ServerTurn.main ok).Succeeds s) : ServerInv (s.mainStep ok) := by
  cases hm : s.main with
  | loop => rw [mainStep, hm]; exact h
  | malloc connfd =>
      cases ok with
      | false => rw [ServerTurn.Succeeds, hm] at hok; exact hok.elim
      | true => rw [mainStep, hm]; exact h.malloc hm
  | openDevice e =>
      cases ok with
      | false => rw [ServerTurn.Succeeds, hm] at hok; exact hok.elim
      | true => rw [mainStep, hm]; exact h.openDevice hm
  | pthreadCreate e =>
      cases ok with
      | false => rw [ServerTurn.Succeeds, hm] at hok; exact hok.elim
      | true =>
          rw [mainStep, hm]
          have hnode := h.pendingNode (e := e) (by rw [hm]; rfl)
          have hopen : s.main.unopened ≠ some e := by
            rw [hm]
            exact (Option.some_ne_none e).symm
          have hstarted := @ServerInv.thread s h e .running (fun _ => ⟨hnode, hopen⟩) s.lock
          exact hstarted.goto (.lockQueue e) hm rfl rfl rfl trivial s.lock
  | lockQueue e =>
      rw [mainStep, hm]
      dsimp only
      split
      · exact h.goto (.insertTail e) hm rfl rfl rfl trivial _
      · exact h
  | insertTail e => rw [mainStep, hm]; exact h.insertTail hm
  | check draining =>
      rw [mainStep, hm]
      dsimp only
      split
      · exact h.goto (.visit draining s.queue 0) hm rfl rfl rfl
          ⟨h.nodup, fun _ he => he, Nat.zero_add _⟩ _
      · exact h
  | visit draining rest outstandingCons => exact h.visit hm ok
  | exited => rw [mainStep, hm]; exact h

theorem ServerInv.step (h : ServerInv s) {turn : ServerTurn} (hok : turn.Succeeds s) :
    ServerInv (s.step turn) := by
  cases turn with
  | accept result =>
      rw [Server.step]
      split
      · rename_i hm
        exact h.accept hm result
      · exact h
  | main ok => exact h.main hok
  | client e => exact h.client e

/-! ## Failures -/

theorem mainStep_malloc_failed {connfd : Nat} (hm : s.main = .malloc connfd) :
    s.mainStep false = { s with main := .check false } := by
  rw [mainStep, hm]
  rfl

theorem mainStep_open_failed {e : Nat} (hm : s.main = .openDevice e) :
    s.mainStep false = { s with main := .check false } := by
  rw [mainStep, hm]
  rfl

theorem mainStep_create_failed {e : Nat} (hm : s.main = .pthreadCreate e) :
    s.mainStep false = { s with main := .check false, res := s.res.free e } := by
  rw [mainStep, hm]
  rfl

/-- A connection that no node in the queue has. -/
theorem not_accounted_of_leak {s : Server} {c : Nat} (ho : s.Outside) (hc : c ∈ s.res.conns)
    (hother : ∀ e ∈ s.queue, s.res.conn e ≠ some c) : ¬ Accounted s := by
  intro hacc
  obtain ⟨e, he, node, hn, hnode⟩ := (hacc.conns ho c).mp hc
  apply hother e he
  rw [Resources.conn, hn, ← hnode]
  rfl

/-- The node that `create_client_thread` gives up has a connection of its own. -/
theorem ServerInv.pending_conn (h : ServerInv s) {e : Nat} (hp : s.main.pending = some e) :
    ∃ c ∈ s.res.conns, ∀ e' ∈ s.queue, s.res.conn e' ≠ some c := by
  obtain ⟨node, hn⟩ := Option.isSome_iff_exists.mp (h.pendingNode hp)
  have hconn : s.res.conn e = some node.connfd := by rw [Resources.conn, hn]; rfl
  refine ⟨node.connfd, (h.owned.conns _).mpr (Or.inr ⟨e, hconn⟩), ?_⟩
  intro e' he' heq
  apply h.apart e hp
  rwa [h.owned.connOnce e e' _ hconn heq]

/-- Every failure leaves the connection open, and nothing in the queue that would close it. -/
theorem ServerInv.not_accounted_step (h : ServerInv s) {turn : ServerTurn}
    (hbad : ¬ turn.Succeeds s) : ¬ Accounted (s.step turn) := by
  cases turn with
  | accept result => exact absurd trivial hbad
  | client e => exact absurd trivial hbad
  | main ok =>
      cases ok with
      | true => exact absurd trivial hbad
      | false =>
          rw [Server.step]
          cases hm : s.main with
          | malloc connfd =>
              rw [mainStep_malloc_failed hm]
              have hfresh : s.main.fresh = some connfd := by rw [hm]; rfl
              refine not_accounted_of_leak (c := connfd) ?_ ?_ ?_
              · trivial
              · exact (h.owned.conns connfd).mpr (Or.inl hfresh)
              · exact fun e _ hc => h.owned.apart connfd hfresh ⟨e, hc⟩
          | openDevice e =>
              rw [mainStep_open_failed hm]
              obtain ⟨c, hc, hother⟩ := h.pending_conn (e := e) (by rw [hm]; rfl)
              exact not_accounted_of_leak (by trivial) hc hother
          | pthreadCreate e =>
              rw [mainStep_create_failed hm]
              have hp : s.main.pending = some e := by rw [hm]; rfl
              obtain ⟨c, hc, hother⟩ := h.pending_conn hp
              refine not_accounted_of_leak (c := c) ?_ hc ?_
              · trivial
              · intro e' he'
                show (s.res.free e).conn e' ≠ some c
                rw [Resources.conn_free, Function.update_of_ne]
                · exact hother e' he'
                · rintro rfl
                  exact h.apart e' hp he'
          | _ => rw [ServerTurn.Succeeds, hm] at hbad; exact absurd trivial hbad

end

end Server

/-- At every point of a run all that is open or allocated is accounted for, exactly when no
allocation, no open and no creation of a thread fails. -/
theorem connections_iff (turns : List ServerTurn) :
    (∀ pre, pre <+: turns → (pre.foldl Server.step .start).Accounted) ↔
      Runs.Guarded Server.step (fun s turn => turn.Succeeds s) .start turns := by
  apply Runs.forall_prefix_iff Server.ServerInv Server.Accounted
  · exact fun _ h => h.accounted
  · exact fun _ _ h _ hok => h.step hok
  · exact fun _ _ h _ hbad => h.not_accounted_step hbad
  · exact Server.start_inv
  · exact Runs.guarded_true _ _

/-- The first connection comes, and `malloc`, or `open`, or `pthread_create` fails. -/
theorem failures_leak_connections :
    (¬ ∀ pre, pre <+: [.accept .conn, .main false] →
      (pre.foldl Server.step .start).Accounted) ∧
    (¬ ∀ pre, pre <+: [.accept .conn, .main true, .main false] →
      (pre.foldl Server.step .start).Accounted) ∧
    (¬ ∀ pre, pre <+: [.accept .conn, .main true, .main true, .main false] →
      (pre.foldl Server.step .start).Accounted) := by
  have hleak : ∀ s : Server, s.Outside → 0 ∈ s.res.conns → s.queue = [] → ¬ s.Accounted := by
    intro s ho hc hempty hacc
    obtain ⟨e, he, _⟩ := (hacc.conns ho 0).mp hc
    rw [hempty] at he
    exact List.not_mem_nil he
  refine ⟨?_, ?_, ?_⟩
  · exact fun h => hleak _ (by trivial) (by decide) (by rfl) (h _ List.prefix_rfl)
  · exact fun h => hleak _ (by trivial) (by decide) (by rfl) (h _ List.prefix_rfl)
  · exact fun h => hleak _ (by trivial) (by decide) (by rfl) (h _ List.prefix_rfl)

end AesdChar
