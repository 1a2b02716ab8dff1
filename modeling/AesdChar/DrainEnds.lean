import AesdChar.ServerThreads
import AesdChar.Lib.Endless

/-!
# The drain

When `main` has left the accept loop it counts the connections, under `queue_lock`, over and over
until there are none.  It gets there exactly when each thread leaves its receive loop, whatever
failed before, as long as each thread's turns keep coming when the lock is free; it need not when
they only keep coming.
-/

namespace AesdChar

/-- The statements the thread has yet to run. -/
def ThreadPc.remaining : ThreadPc → Nat
  | .running => 4
  | .locked => 3
  | .flagged => 2
  | .unlocked => 1
  | .exited => 0

/-- In the loop behind the accept loop, or through with it. -/
def MainPc.Drains : MainPc → Prop
  | .check draining => draining = true
  | .visit draining _ _ => draining = true
  | .exited => True
  | _ => False

namespace Server

section

variable {s : Server}

/-! ## A thread comes to its exit -/

/-- What is left for the thread of the node `e` to do. -/
def remaining (s : Server) (e : Nat) : Nat := (s.threads e).elim 0 ThreadPc.remaining

/-- Only `pthread_create` changes the threads. -/
theorem mainStep_threads (s : Server) (ok : Bool) :
    (s.mainStep ok).threads = s.threads ∨ ∃ e, s.main = .pthreadCreate e ∧
      (s.mainStep ok).threads = Function.update s.threads e (some .running) := by
  cases hm : s.main with
  | pthreadCreate e =>
      simp only [mainStep, hm]
      cases ok with
      | false => exact Or.inl rfl
      | true => exact Or.inr ⟨e, rfl, rfl⟩
  | visit draining rest outstandingCons =>
      apply Or.inl
      cases rest with
      | nil => simp only [mainStep, hm]
      | cons e rest =>
          simp only [mainStep, hm]
          split
          · split <;> rfl
          · rfl
  | malloc connfd =>
      simp only [mainStep, hm]
      split <;> exact Or.inl rfl
  | openDevice e =>
      simp only [mainStep, hm]
      split <;> exact Or.inl rfl
  | lockQueue e =>
      simp only [mainStep, hm]
      split <;> exact Or.inl rfl
  | check draining =>
      simp only [mainStep, hm]
      split <;> exact Or.inl rfl
  | _ => exact Or.inl (by simp only [mainStep, hm])

theorem threads_mainStep (h : Tended s) {e : Nat} {pc : ThreadPc} (ht : s.threads e = some pc)
    (ok : Bool) : (s.mainStep ok).threads e = some pc := by
  rcases s.mainStep_threads ok with hsame | ⟨e', hm, hnew⟩
  · rwa [hsame]
  · rw [hnew, Function.update_of_ne, ht]
    rintro rfl
    rw [h.fresh e (Or.inr (by rw [hm]; rfl))] at ht
    exact absurd ht (Option.some_ne_none pc).symm

theorem threads_clientStep_of_ne {e e' : Nat} (he : e ≠ e') :
    (s.clientStep e').threads e = s.threads e := by
  cases ht : s.threads e' with
  | none => simp only [clientStep, ht]
  | some pc =>
      cases pc with
      | running =>
          simp only [clientStep, ht]
          split
          · exact Function.update_of_ne he _ _
          · rfl
      | exited => simp only [clientStep, ht]
      | _ =>
          simp only [clientStep, ht]
          exact Function.update_of_ne he _ _

/-- The thread's own turn, when nothing is in its way. -/
theorem remaining_clientStep {e : Nat} {pc : ThreadPc} (ht : s.threads e = some pc)
    (hpc : pc ≠ .exited) (hfree : pc = .running → s.lock = none) :
    ∃ pc', (s.clientStep e).threads e = some pc' ∧ pc'.remaining < pc.remaining := by
  cases pc with
  | running =>
      simp only [clientStep, ht, if_pos (hfree rfl)]
      exact ⟨.locked, Function.update_self e _ _, by decide⟩
  | locked =>
      simp only [clientStep, ht]
      exact ⟨.flagged, Function.update_self e _ _, by decide⟩
  | flagged =>
      simp only [clientStep, ht]
      exact ⟨.unlocked, Function.update_self e _ _, by decide⟩
  | unlocked =>
      simp only [clientStep, ht]
      exact ⟨.exited, Function.update_self e _ _, by decide⟩
  | exited => exact absurd rfl hpc

/-- No turn takes a thread back. -/
theorem remaining_step (h : Tended s) {e : Nat} {pc : ThreadPc} (ht : s.threads e = some pc)
    (turn : ServerTurn) :
    ∃ pc', (s.step turn).threads e = some pc' ∧ pc'.remaining ≤ pc.remaining := by
  cases turn with
  | accept result =>
      refine ⟨pc, ?_, le_rfl⟩
      rw [Server.step]
      split
      · cases result <;> exact ht
      · exact ht
  | main ok => exact ⟨pc, threads_mainStep h ht ok, le_rfl⟩
  | client e' =>
      by_cases he : e = e'
      · rw [← he]
        by_cases hdone : pc = .exited
        · refine ⟨pc, ?_, le_rfl⟩
          rw [hdone] at ht ⊢
          simp only [Server.step, clientStep, ht]
        · by_cases hfree : pc = .running → s.lock = none
          · obtain ⟨pc', hpc', hlt⟩ := remaining_clientStep ht hdone hfree
            exact ⟨pc', hpc', hlt.le⟩
          · -- it waits
            obtain ⟨hrun, hheld⟩ : pc = .running ∧ s.lock ≠ none := by
              rwa [Classical.not_imp] at hfree
            refine ⟨pc, ?_, le_rfl⟩
            rw [hrun] at ht ⊢
            simp only [Server.step, clientStep, ht, if_neg hheld]
      · exact ⟨pc, (threads_clientStep_of_ne he).trans ht, le_rfl⟩

theorem exited_step (h : Tended s) {e : Nat} (ht : s.threads e = some .exited)
    (turn : ServerTurn) : (s.step turn).threads e = some .exited := by
  obtain ⟨pc, hpc, hle⟩ := remaining_step h ht turn
  cases pc with
  | exited => exact hpc
  | _ => exact absurd hle (by decide)

/-! ## `main` leaves -/

/-- The nodes of the queue are among `nodes`, and no new one comes. -/
def Draining (nodes : List Nat) (s : Server) : Prop :=
  InOrder s ∧ s.main.Drains ∧ ∀ e ∈ s.queue, e ∈ nodes

/-- Every thread there has been is through. -/
def Quiet (s : Server) : Prop :=
  InOrder s ∧ s.main.Drains ∧ ∀ e pc, s.threads e = some pc → pc = .exited

theorem drains_mainStep (hd : s.main.Drains) (ok : Bool) :
    (s.mainStep ok).main.Drains ∧ ∀ e ∈ (s.mainStep ok).queue, e ∈ s.queue := by
  cases hm : s.main with
  | check draining =>
      rw [hm] at hd
      simp only [mainStep, hm]
      split
      · exact ⟨hd, fun _ he => he⟩
      · refine ⟨?_, fun _ he => he⟩
        rw [hm]
        exact hd
  | visit draining rest outstandingCons =>
      rw [hm] at hd
      have hd' : draining = true := hd
      cases rest with
      | nil =>
          simp only [mainStep, hm, hd', if_true]
          refine ⟨?_, fun _ he => he⟩
          split
          · trivial
          · rfl
      | cons e rest =>
          simp only [mainStep, hm]
          split
          · split
            · exact ⟨hd, fun _ he => List.mem_of_mem_erase he⟩
            · refine ⟨?_, fun _ he => he⟩
              rw [hm]
              exact hd
          · exact ⟨hd, fun _ he => he⟩
  | exited =>
      simp only [mainStep, hm]
      exact ⟨trivial, fun _ he => he⟩
  | _ =>
      rw [hm] at hd
      exact hd.elim

theorem main_clientStep (e : Nat) :
    (s.clientStep e).main = s.main ∧ (s.clientStep e).queue = s.queue := by
  rw [clientStep]
  split
  · split <;> exact ⟨rfl, rfl⟩
  · exact ⟨rfl, rfl⟩
  · exact ⟨rfl, rfl⟩
  · exact ⟨rfl, rfl⟩
  · exact ⟨rfl, rfl⟩
  · exact ⟨rfl, rfl⟩

theorem accept_drains (hd : s.main.Drains) (result : Accepted) :
    s.step (.accept result) = s := by
  rw [Server.step]
  split
  · rename_i hm
    rw [hm] at hd
    exact hd.elim
  · rfl

theorem Draining.step {nodes : List Nat} (h : Draining nodes s) (turn : ServerTurn) :
    Draining nodes (s.step turn) := by
  obtain ⟨horder, hd, hsub⟩ := h
  refine ⟨horder.step turn, ?_⟩
  cases turn with
  | accept result =>
      rw [accept_drains hd]
      exact ⟨hd, hsub⟩
  | main ok =>
      obtain ⟨hd', hsub'⟩ := drains_mainStep hd ok
      exact ⟨hd', fun e he => hsub e (hsub' e he)⟩
  | client e =>
      obtain ⟨hmain, hqueue⟩ := @main_clientStep s e
      rw [Server.step, hmain, hqueue]
      exact ⟨hd, hsub⟩

theorem Drains.nobody {main : MainPc} (hd : main.Drains) : main.started = none := by
  cases main with
  | lockQueue e => exact hd.elim
  | insertTail e => exact hd.elim
  | _ => rfl

/-- With its threads through, nobody but `main` moves. -/
theorem Quiet.others (h : Quiet s) {turn : ServerTurn} (hmain : ∀ ok, turn ≠ .main ok) :
    s.step turn = s := by
  obtain ⟨_, hd, hexit⟩ := h
  cases turn with
  | accept result => exact accept_drains hd result
  | main ok => exact absurd rfl (hmain ok)
  | client e =>
      cases ht : s.threads e with
      | none => simp only [Server.step, clientStep, ht]
      | some pc =>
          rw [hexit e pc ht] at ht
          simp only [Server.step, clientStep, ht]

theorem Quiet.step (h : Quiet s) (turn : ServerTurn) : Quiet (s.step turn) := by
  cases turn with
  | main ok =>
      obtain ⟨horder, hd, hexit⟩ := h
      refine ⟨horder.step _, (drains_mainStep hd ok).1, ?_⟩
      intro e pc ht
      have hsame : (s.mainStep ok).threads = s.threads := by
        rcases s.mainStep_threads ok with hsame | ⟨e', hm, -⟩
        · exact hsame
        · rw [hm] at hd
          exact hd.elim
      rw [Server.step, hsame] at ht
      exact hexit e pc ht
  | accept result =>
      rw [h.others fun ok => by simp]
      exact h
  | client e =>
      rw [h.others fun ok => by simp]
      exact h

/-- What `main` has yet to do when every thread is through: the walk it is in, and the next one
should it have counted anybody. -/
def left (s : Server) : Nat :=
  match s.main with
  | .check _ => 2 + s.queue.length
  | .visit _ rest 0 => 1 + rest.length
  | .visit _ rest (_ + 1) => 3 + s.queue.length + rest.length
  | _ => 0

theorem Quiet.main_left (h : Quiet s) (hm : s.main ≠ .exited) (ok : Bool) :
    (s.mainStep ok).left < s.left := by
  obtain ⟨⟨htended, ls, hlinked⟩, hd, hexit⟩ := h
  have hclients : ∀ e, s.inside (.client e) = false := by
    intro e
    rw [inside]
    cases ht : s.threads e with
    | none => rfl
    | some pc =>
        rw [hexit e pc ht]
        rfl
  cases hpc : s.main with
  | check draining =>
      have hfree : s.lock = none := by
        apply htended.guards.free
        intro o
        cases o with
        | main => rw [inside, hpc]; rfl
        | client e => exact hclients e
      simp only [mainStep, left, hpc, if_pos hfree]
      omega
  | visit draining rest outstandingCons =>
      have hwalks := htended.walks
      rw [hpc] at hwalks hd
      have hd' : draining = true := hd
      cases rest with
      | nil =>
          simp only [mainStep, left, hpc, hd', if_true]
          cases outstandingCons with
          | zero =>
              rw [if_pos rfl]
              simp
          | succ n =>
              rw [if_neg (Nat.succ_ne_zero n)]
              simp only [List.length_nil]
              omega
      | cons e rest =>
          have hq : e ∈ s.queue := hwalks.2.1 e List.mem_cons_self
          obtain ⟨hthread, hnode⟩ := htended.served e (Or.inl hq)
          obtain ⟨pc, ht⟩ := Option.isSome_iff_exists.mp hthread
          rw [hexit e pc ht] at ht
          have hfin : s.res.finished e = true := htended.flag e .exited ht hnode
          have hlen := List.length_erase_of_mem hq
          simp only [mainStep, left, hpc, if_pos hfin, if_pos ht]
          cases outstandingCons with
          | zero =>
              simp only [List.length_cons]
              omega
          | succ n =>
              simp only [List.length_cons]
              omega
  | exited => exact absurd hpc hm
  | _ =>
      rw [hpc] at hd
      exact hd.elim

end

end Server

/-! ## The receive loops -/

/-- What a round of the receive loop came to. -/
inductive Round where
  -- in front of the first one `malloc` returned NULL
  | unallocated
  -- `read (connfd, ..)` returned `ret`; `served` when `process_packet` returned 0 for all of them
  | received (ret : Int) (served : Bool)

/-- The loop is left for `cleanup`.  A read that fails is none that ends it. -/
def Round.leaves : Round → Bool
  | .unallocated => true
  | .received ret served => decide (ret = 0) || !served

inductive ReceivingTurn where
  -- a round comes to its end; none does as long as a client sends nothing
  | receive (e : Nat) (round : Round)
  | server (turn : ServerTurn)

/-- The server, with the threads of the connections in their receive loops. -/
structure ReceivingServer where
  server : Server
  -- the thread of the node is at `cleanup`, or behind it
  cleanup : Nat → Bool

namespace ReceivingServer

def start : ReceivingServer := ⟨.start, fun _ => false⟩

def step (s : ReceivingServer) : ReceivingTurn → ReceivingServer
  | .receive e round =>
      if s.server.threads e = some .running ∧ s.cleanup e = false then
        { s with cleanup := Function.update s.cleanup e round.leaves }
      else s
  | .server (.client e) =>
      if s.cleanup e then { s with server := s.server.clientStep e } else s
  | .server turn => { s with server := s.server.step turn }

/-- The turn is for the thread of the node `e`, and finds the lock free when that is what the thread
waits for. -/
def Lets (s : ReceivingServer) (e : Nat) (turn : ReceivingTurn) : Prop :=
  turn = .server (.client e) ∧
    (s.server.threads e = some .running → s.cleanup e = true → s.server.lock = none)

/-- A round takes the thread of the node `e` out of its receive loop. -/
def Leaves (s : ReceivingServer) (e : Nat) (turn : ReceivingTurn) : Prop :=
  s.server.threads e = some .running ∧ ∃ round, turn = .receive e round ∧ round.leaves = true

/-- Only behind its receive loop a thread asks for the lock. -/
def Received (s : ReceivingServer) : Prop :=
  ∀ e pc, s.server.threads e = some pc → pc ≠ .running → s.cleanup e = true

section

variable {s : ReceivingServer}

theorem server_step (s : ReceivingServer) (turn : ReceivingTurn) :
    (s.step turn).server = s.server ∨
      ∃ turn', turn = .server turn' ∧ (s.step turn).server = s.server.step turn' := by
  cases turn with
  | receive e round =>
      apply Or.inl
      rw [step]
      split <;> rfl
  | server turn =>
      cases turn with
      | client e =>
          rw [step]
          split
          · exact Or.inr ⟨.client e, rfl, rfl⟩
          · exact Or.inl rfl
      | accept result => exact Or.inr ⟨.accept result, rfl, rfl⟩
      | main ok => exact Or.inr ⟨.main ok, rfl, rfl⟩

/-- What the server keeps it keeps with its threads in their loops. -/
theorem keeps {P : Server → Prop} (hstep : ∀ s turn, P s → P (s.step turn)) (h : P s.server)
    (turn : ReceivingTurn) : P (s.step turn).server := by
  rcases s.server_step turn with hsame | ⟨turn', -, hturn⟩
  · rwa [hsame]
  · rw [hturn]
    exact hstep _ _ h

theorem cleanup_step_iff (s : ReceivingServer) (e : Nat) (turn : ReceivingTurn) :
    (s.step turn).cleanup e = true ↔ s.cleanup e = true ∨ s.Leaves e turn := by
  have hserver : ∀ turn', ¬ s.Leaves e (.server turn') := by
    rintro turn' ⟨-, round, hturn, -⟩
    exact ReceivingTurn.noConfusion hturn
  cases turn with
  | receive e' round =>
      rw [step]
      by_cases he : e = e'
      · subst he
        -- a round counts for a thread that is still in its loop
        have hleaves : s.Leaves e (.receive e round) ↔
            s.server.threads e = some .running ∧ round.leaves = true := by
          simp [Leaves]
        rw [hleaves]
        split
        · rename_i hin
          dsimp only
          rw [Function.update_self, hin.1, hin.2]
          simp
        · rename_i hout
          cases hc : s.cleanup e with
          | true => simp
          | false => simp [show s.server.threads e ≠ some .running from fun h => hout ⟨h, hc⟩]
      · have hnot : ¬ s.Leaves e (.receive e' round) := by
          rintro ⟨-, round', hturn, -⟩
          exact he (ReceivingTurn.receive.inj hturn).1.symm
        rw [or_iff_left hnot]
        split
        · exact iff_of_eq (congrArg (· = true) (Function.update_of_ne he _ _))
        · exact Iff.rfl
  | server turn' =>
      rw [or_iff_left (hserver turn')]
      cases turn' with
      | client e' =>
          rw [step]
          split <;> exact Iff.rfl
      | accept result => exact Iff.rfl
      | main ok => exact Iff.rfl

theorem cleanup_step {e : Nat} (h : s.cleanup e = true) (turn : ReceivingTurn) :
    (s.step turn).cleanup e = true :=
  (s.cleanup_step_iff e turn).mpr (Or.inl h)

theorem Received.step (h : Received s) (turn : ReceivingTurn) : Received (s.step turn) := by
  intro e pc ht hpc
  cases turn with
  | receive e' round =>
      apply cleanup_step
      apply h e pc _ hpc
      rw [ReceivingServer.step] at ht
      split at ht <;> exact ht
  | server turn =>
      apply cleanup_step
      cases turn with
      | client e' =>
          rw [ReceivingServer.step] at ht
          split at ht
          · rename_i hleft
            -- the step out of `.running` is one that `cleanup` lets through
            by_cases he : e = e'
            · rwa [he]
            · exact h e pc ((Server.threads_clientStep_of_ne he).symm.trans ht) hpc
          · exact h e pc ht hpc
      | accept result =>
          apply h e pc _ hpc
          rw [← ht]
          show _ = (s.server.step (.accept result)).threads e
          rw [Server.step]
          split
          · cases result <;> rfl
          · rfl
      | main ok =>
          change (s.server.mainStep ok).threads e = some pc at ht
          rcases s.server.mainStep_threads ok with hsame | ⟨e', -, hnew⟩
          · rw [hsame] at ht
            exact h e pc ht hpc
          · rw [hnew] at ht
            -- a thread that `main` has just started is `.running`
            by_cases he : e = e'
            · rw [he, Function.update_self] at ht
              exact absurd (Option.some.inj ht).symm hpc
            · rw [Function.update_of_ne he] at ht
              exact h e pc ht hpc

/-! ## Endless runs -/

variable {turns : Nat → ReceivingTurn}

/-- The server before turn `n`. -/
def before (turns : Nat → ReceivingTurn) (n : Nat) : ReceivingServer :=
  Endless.state step start turns n

theorem before_succ (turns : Nat → ReceivingTurn) (n : Nat) :
    before turns (n + 1) = (before turns n).step (turns n) := rfl

/-- What the server keeps stays. -/
theorem stays {P : Server → Prop} (hstep : ∀ s turn, P s → P (s.step turn)) {n m : Nat}
    (hn : P (before turns n).server) (hm : n ≤ m) : P (before turns m).server :=
  Endless.stays (P := fun s : ReceivingServer => P s.server) (fun _ turn h => keeps hstep h turn)
    hn hm

theorem inOrder_before (turns : Nat → ReceivingTurn) (n : Nat) :
    (before turns n).server.InOrder :=
  stays (n := 0) (fun _ turn h => h.step turn) Server.inOrder_start (Nat.zero_le n)

theorem received_before (turns : Nat → ReceivingTurn) (n : Nat) : Received (before turns n) := by
  induction n with
  | zero => exact fun e pc ht => absurd ht (Option.some_ne_none pc).symm
  | succ n ih => exact ih.step (turns n)

theorem cleanup_stays {e n m : Nat} (hn : (before turns n).cleanup e = true) (hm : n ≤ m) :
    (before turns m).cleanup e = true :=
  Endless.stays (P := fun s : ReceivingServer => s.cleanup e = true)
    (fun _ turn h => cleanup_step h turn) hn hm

/-- A thread is at `cleanup` when a round has taken it out of its loop. -/
theorem exists_cleanup_iff (turns : Nat → ReceivingTurn) (e : Nat) :
    (∃ m, (before turns m).cleanup e = true) ↔ ∃ m, (before turns m).Leaves e (turns m) := by
  constructor
  · rintro ⟨m, hm⟩
    induction m with
    | zero => exact absurd hm Bool.false_ne_true
    | succ m ih =>
        rcases ((before turns m).cleanup_step_iff e (turns m)).mp hm with hbefore | hleaves
        · exact ih hbefore
        · exact ⟨m, hleaves⟩
  · rintro ⟨m, hleaves⟩
    exact ⟨m + 1, ((before turns m).cleanup_step_iff e (turns m)).mpr (Or.inr hleaves)⟩

theorem thread_stays {e n m : Nat} (he : e ∈ (before turns n).server.queue) (hm : n ≤ m) :
    ((before turns m).server.threads e).isSome = true := by
  have hstays := stays (P := fun s => s.InOrder ∧ (s.threads e).isSome = true) (by
    rintro s turn ⟨horder, hsome⟩
    obtain ⟨pc, ht⟩ := Option.isSome_iff_exists.mp hsome
    obtain ⟨pc', ht', _⟩ := Server.remaining_step horder.1 ht turn
    exact ⟨horder.step turn, Option.isSome_iff_exists.mpr ⟨pc', ht'⟩⟩)
    ⟨inOrder_before turns n, ((inOrder_before turns n).1.served e (Or.inl he)).1⟩ hm
  exact hstays.2

/-- A thread at `cleanup` comes to its exit. -/
theorem thread_exits {e : Nat} (hfair : ∀ k, ∃ m ≥ k, (before turns m).Lets e (turns m)) {n : Nat}
    (hthread : ((before turns n).server.threads e).isSome = true)
    (hleft : (before turns n).cleanup e = true) :
    ∃ m ≥ n, (before turns m).server.InOrder ∧
      (before turns m).server.threads e = some .exited := by
  apply Endless.reaches
    (fun s : ReceivingServer =>
      s.server.InOrder ∧ (s.server.threads e).isSome = true ∧ s.cleanup e = true)
    (fun s => s.server.InOrder ∧ s.server.threads e = some .exited)
    (fun s => s.server.remaining e) (fun s turn => s.Lets e turn)
  · -- the thread stays at `cleanup` or behind it
    rintro s turn ⟨horder, hsome, hleft⟩
    refine ⟨keeps (fun _ turn h => h.step turn) horder turn, ?_, cleanup_step hleft turn⟩
    rcases s.server_step turn with hsame | ⟨turn', -, hturn⟩
    · rwa [hsame]
    · obtain ⟨pc, ht⟩ := Option.isSome_iff_exists.mp hsome
      obtain ⟨pc', ht', _⟩ := Server.remaining_step horder.1 ht turn'
      rw [hturn]
      exact Option.isSome_iff_exists.mpr ⟨pc', ht'⟩
  · -- no turn gives it more statements to run
    rintro s turn ⟨horder, hsome, -⟩ _
    rcases s.server_step turn with hsame | ⟨turn', -, hturn⟩
    · rw [hsame]
    · obtain ⟨pc, ht⟩ := Option.isSome_iff_exists.mp hsome
      obtain ⟨pc', ht', hle⟩ := Server.remaining_step horder.1 ht turn'
      rw [hturn, Server.remaining, Server.remaining, ht, ht']
      exact hle
  · -- one of its own, with the lock free where it asks for it, runs one of them
    rintro s turn ⟨horder, hsome, hleft⟩ hgoal ⟨rfl, hfree⟩
    obtain ⟨pc, ht⟩ := Option.isSome_iff_exists.mp hsome
    have hne : pc ≠ .exited := by
      rintro rfl
      exact hgoal ⟨horder, ht⟩
    obtain ⟨pc', ht', hlt⟩ :=
      Server.remaining_clientStep ht hne fun hr => hfree (hr ▸ ht) hleft
    rw [step, if_pos hleft]
    dsimp only
    rw [Server.remaining, Server.remaining, ht, ht']
    exact hlt
  · exact hfair
  · exact ⟨inOrder_before turns n, hthread, hleft⟩

/-- A node that has left the queue had a thread that left its receive loop. -/
theorem cleanup_of_gone {e n m : Nat} (he : e ∈ (before turns n).server.queue) (hm : n ≤ m)
    (hdrains : (before turns m).server.main.Drains) (hgone : e ∉ (before turns m).server.queue) :
    (before turns m).cleanup e = true := by
  obtain ⟨pc, ht⟩ := Option.isSome_iff_exists.mp (thread_stays he hm)
  rcases (inOrder_before turns m).1.tended e pc ht with hdone | hin | hs
  · -- `main` took it out because it had exited
    apply received_before turns m e pc ht
    rw [hdone]
    decide
  · exact absurd hin hgone
  · rw [Server.Drains.nobody hdrains] at hs
    exact absurd hs (Option.some_ne_none e).symm

end

end ReceivingServer

/-- In an endless run, with any failures in it, in which `main` and each thread of the queue keep
getting turns, the threads also when the lock they wait for is free, the drain comes to its end,
with no node left in the queue and no thread left running, exactly when each of these threads has a
round that leaves its receive loop. -/
theorem drain_ends_iff (turns : Nat → ReceivingTurn) {n : Nat}
    (hdrains : (ReceivingServer.before turns n).server.main.Drains)
    (hmain : ∀ k, ∃ m ≥ k, ∃ ok, turns m = .server (.main ok))
    (hclients : ∀ e ∈ (ReceivingServer.before turns n).server.queue, ∀ k, ∃ m ≥ k,
      (ReceivingServer.before turns m).Lets e (turns m)) :
    (∃ m ≥ n, (ReceivingServer.before turns m).server.main = .exited ∧
        (ReceivingServer.before turns m).server.queue = [] ∧
        ∀ e pc, (ReceivingServer.before turns m).server.threads e = some pc → pc = .exited) ↔
      ∀ e ∈ (ReceivingServer.before turns n).server.queue,
        ∃ m, (ReceivingServer.before turns m).Leaves e (turns m) := by
  simp only [← ReceivingServer.exists_cleanup_iff]
  constructor
  · -- an empty queue has lost each of its nodes
    rintro ⟨m, hm, hexited, hempty, -⟩ e he
    refine ⟨m, ReceivingServer.cleanup_of_gone he hm ?_ ?_⟩
    · rw [hexited]
      trivial
    · rw [hempty]
      exact List.not_mem_nil
  intro hleaves
  have horder := ReceivingServer.inOrder_before turns n
  -- first the threads, then `main` alone
  obtain ⟨k, hk, hexited⟩ := Endless.reaches_all
    (fun e (s : ReceivingServer) => s.server.InOrder ∧ s.server.threads e = some .exited)
    (fun e s turn h => ReceivingServer.keeps (P := fun s => s.InOrder ∧ s.threads e = some .exited)
      (fun _ turn h => ⟨h.1.step turn, Server.exited_step h.1.1 h.2 turn⟩) h turn)
    (ReceivingServer.before turns n).server.queue (by
      intro e he
      -- the round may come before the drain or in it
      obtain ⟨j, hleft⟩ := hleaves e he
      obtain ⟨m, hm, hexits⟩ := ReceivingServer.thread_exits (hclients e he)
        (ReceivingServer.thread_stays he (le_max_left n j))
        (ReceivingServer.cleanup_stays hleft (le_max_right n j))
      exact ⟨m, (le_max_left n j).trans hm, hexits⟩)
  have hdraining := ReceivingServer.stays
    (P := Server.Draining (ReceivingServer.before turns n).server.queue)
    (fun _ turn h => h.step turn) ⟨horder, hdrains, fun _ he => he⟩ hk
  have hquiet : Server.Quiet (ReceivingServer.before turns k).server := by
    refine ⟨hdraining.1, hdraining.2.1, ?_⟩
    intro e pc ht
    rcases hdraining.1.1.tended e pc ht with hdone | hq | hs
    · exact hdone
    · have hexit := (hexited e (hdraining.2.2 e hq)).2
      exact Option.some.inj (ht.symm.trans hexit)
    · rw [Server.Drains.nobody hdraining.2.1] at hs
      exact absurd hs (Option.some_ne_none e).symm
  obtain ⟨m, hm, hquiet', hleft⟩ := Endless.reaches (fun s : ReceivingServer => s.server.Quiet)
    (fun s => s.server.Quiet ∧ s.server.main = .exited) (fun s => s.server.left)
    (fun _ turn => ∃ ok, turn = .server (.main ok))
    (fun _ turn h => ReceivingServer.keeps (fun _ turn h => h.step turn) h turn)
    (by
      intro s turn h hgoal
      rcases s.server_step turn with hsame | ⟨turn', -, hturn⟩
      · rw [hsame]
      · rw [hturn]
        by_cases hmain : ∀ ok, turn' ≠ .main ok
        · rw [h.others hmain]
        · push Not at hmain
          obtain ⟨ok, rfl⟩ := hmain
          exact (h.main_left (fun hm => hgoal ⟨h, hm⟩) ok).le)
    (by
      rintro s _ h hgoal ⟨ok, rfl⟩
      exact h.main_left (fun hm => hgoal ⟨h, hm⟩) ok)
    hmain hquiet
  refine ⟨m, hk.trans hm, hleft, ?_, hquiet'.2.2⟩
  have hwalks := hquiet'.1.1.walks
  rwa [hleft] at hwalks

/-- A connection comes and is being served when the signal does, and is closed then; `turn` says who
goes on. -/
def oneConnection (turn : Nat → ServerTurn) (n : Nat) : ReceivingTurn :=
  if n < 11 then
    ([.server (.accept .conn), .server (.main true), .server (.main true), .server (.main true),
      .server (.main true), .server (.main true), .server (.main true), .server (.main true),
      .server (.main true), .server (.accept .stopped), .receive 0 (.received 0 true)] :
      List ReceivingTurn).getD n (.server (.main true))
  else .server (turn (n - 11))

/-- The thread and `main` in turn, the thread first. -/
def alternating (n : Nat) : ServerTurn := if n % 2 = 0 then .client 0 else .main true

theorem drain_ends_alternating :
    ∃ m ≥ 11, (ReceivingServer.before (oneConnection alternating) m).server.main = .exited ∧
      (ReceivingServer.before (oneConnection alternating) m).server.queue = [] ∧
      ∀ e pc, (ReceivingServer.before (oneConnection alternating) m).server.threads e = some pc →
        pc = .exited := by
  apply (drain_ends_iff (oneConnection alternating) (n := 11) rfl ?_ ?_).mpr
  · intro e he
    obtain rfl : e = 0 := List.mem_singleton.mp he
    exact ⟨10, rfl, .received 0 true, rfl, rfl⟩
  · intro k
    refine ⟨2 * k + 12, by omega, true, ?_⟩
    rw [oneConnection, if_neg (by omega), alternating, if_neg (by omega)]
  · intro e he k
    obtain rfl : e = 0 := List.mem_singleton.mp he
    refine ⟨2 * k + 13, by omega, ?_, ?_⟩
    · rw [oneConnection, if_neg (by omega), alternating, if_pos (by omega)]
    · -- by then the thread has had the lock
      have hpast := ReceivingServer.stays
        (P := fun s => s.InOrder ∧ ∃ pc, s.threads 0 = some pc ∧ pc.remaining ≤ 3)
        (fun s turn ⟨horder, pc, ht, hle⟩ => by
          obtain ⟨pc', ht', hle'⟩ := Server.remaining_step horder.1 ht turn
          exact ⟨horder.step turn, pc', ht', hle'.trans hle⟩)
        ⟨ReceivingServer.inOrder_before (oneConnection alternating) 12, .locked, rfl, by decide⟩
        (show 12 ≤ 2 * k + 13 by omega)
      obtain ⟨-, pc, ht, hle⟩ := hpast
      intro hrun
      rw [Option.some.inj (ht.symm.trans hrun)] at hle
      exact absurd hle (by decide)

/-- `main` takes the lock, the thread waits for it, and `main` counts the thread. -/
def waiting (n : Nat) : ServerTurn := if n % 4 = 1 then .client 0 else .main true

/-- It is not enough that every turn keeps coming: those of the thread can all come while `main` has
the lock. -/
theorem drain_starves :
    (ReceivingServer.before (oneConnection waiting) 11).server.main.Drains ∧
      (ReceivingServer.before (oneConnection waiting) 11).server.queue = [0] ∧
      (ReceivingServer.before (oneConnection waiting) 11).cleanup 0 = true ∧
      (∀ k, ∃ m ≥ k, oneConnection waiting m = .server (.main true)) ∧
      (∀ k, ∃ m ≥ k, oneConnection waiting m = .server (.client 0)) ∧
      ∀ m ≥ 11, (ReceivingServer.before (oneConnection waiting) m).server.main ≠ .exited := by
  have hturn : ∀ n, oneConnection waiting (11 + n) = .server (waiting n) := by
    intro n
    rw [oneConnection, if_neg (by omega), Nat.add_sub_cancel_left]
  -- after four turns everything is as it was
  have hround : ∀ k, ReceivingServer.before (oneConnection waiting) (11 + 4 * k) =
      ReceivingServer.before (oneConnection waiting) 11 := by
    intro k
    induction k with
    | zero => rfl
    | succ k ih =>
        have h0 : oneConnection waiting (11 + 4 * k) = .server (.main true) := by
          rw [hturn, waiting, if_neg (by omega)]
        have h1 : oneConnection waiting (11 + 4 * k + 1) = .server (.client 0) := by
          rw [Nat.add_assoc, hturn, waiting, if_pos (by omega)]
        have h2 : oneConnection waiting (11 + 4 * k + 1 + 1) = .server (.main true) := by
          rw [Nat.add_assoc, Nat.add_assoc, hturn, waiting, if_neg (by omega)]
        have h3 : oneConnection waiting (11 + 4 * k + 1 + 1 + 1) = .server (.main true) := by
          rw [Nat.add_assoc, Nat.add_assoc, Nat.add_assoc, hturn, waiting, if_neg (by omega)]
        rw [show 11 + 4 * (k + 1) = 11 + 4 * k + 1 + 1 + 1 + 1 by omega,
          ReceivingServer.before_succ, ReceivingServer.before_succ, ReceivingServer.before_succ,
          ReceivingServer.before_succ, h0, h1, h2, h3, ih]
        rfl
  refine ⟨rfl, rfl, rfl, ?_, ?_, ?_⟩
  · intro k
    refine ⟨11 + 4 * k, by omega, ?_⟩
    rw [hturn, waiting, if_neg (by omega)]
  · intro k
    refine ⟨11 + (4 * k + 1), by omega, ?_⟩
    rw [hturn, waiting, if_pos (by omega)]
  · intro m hm
    have hstays := @ReceivingServer.stays (oneConnection waiting)
      (fun s => s.main = .exited) (fun s turn h => by
        cases turn with
        | accept result => rw [Server.step, h]; exact h
        | main ok => rw [Server.step, Server.mainStep, h]; exact h
        | client e => rw [Server.step, (Server.main_clientStep e).1]; exact h) m
    intro hexit
    have hlater := hstays hexit (show m ≤ 11 + 4 * m by omega)
    change (ReceivingServer.before (oneConnection waiting) (11 + 4 * m)).server.main = .exited
      at hlater
    rw [hround] at hlater
    exact MainPc.noConfusion hlater

end AesdChar
