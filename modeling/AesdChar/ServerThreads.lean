import AesdChar.LinkedServer
import AesdChar.Lib.Mutex

/-!
# The threads of the server

Which thread has which node, whatever fails: a node has a thread once `pthread_create` has made one,
and stays in the queue until that thread has set its flag, given `queue_lock` back and exited.
-/

namespace AesdChar

open Mutex

/-- Between the lock and the unlock of `queue_lock`. -/
def ThreadPc.inSection : ThreadPc → Bool
  | .locked => true
  | .flagged => true
  | _ => false

/-- Behind `task_finished = 1`. -/
def ThreadPc.isFlagged : ThreadPc → Bool
  | .running => false
  | .locked => false
  | _ => true

def MainPc.inSection : MainPc → Bool
  | .insertTail _ => true
  | .visit _ _ _ => true
  | _ => false

/-- The node of a thread that `create_client_thread` has yet to create. -/
def MainPc.unstarted : MainPc → Option Nat
  | .openDevice e => some e
  | .pthreadCreate e => some e
  | _ => none

/-- The node of a thread that runs and is not in the queue yet. -/
def MainPc.started : MainPc → Option Nat
  | .lockQueue e => some e
  | .insertTail e => some e
  | _ => none

namespace Server

def inside (s : Server) : Owner → Bool
  | .main => s.main.inSection
  | .client e => (s.threads e).any ThreadPc.inSection

/-- A node has a thread from `pthread_create` on, and is in the queue as long as the thread runs;
the walk has counted what it left there. -/
structure Tended (s : Server) : Prop where
  guards : Guards s.lock s.inside
  walks : s.main.Walks s.queue
  fresh : ∀ e, s.res.allocated ≤ e ∨ s.main.unstarted = some e → s.threads e = none
  unserved : ∀ e, s.main.unstarted = some e →
    (s.res.nodes e).isSome = true ∧ s.res.finished e = false
  served : ∀ e, e ∈ s.queue ∨ s.main.started = some e →
    (s.threads e).isSome = true ∧ (s.res.nodes e).isSome = true
  tended : ∀ e pc, s.threads e = some pc →
    pc = .exited ∨ e ∈ s.queue ∨ s.main.started = some e
  flag : ∀ e pc, s.threads e = some pc → (s.res.nodes e).isSome = true →
    s.res.finished e = pc.isFlagged

theorem tended_start : Tended start where
  guards := by
    intro o
    cases o with
    | main => exact iff_of_false (Option.some_ne_none _).symm Bool.false_ne_true
    | client e => exact iff_of_false (Option.some_ne_none _).symm Bool.false_ne_true
  walks := trivial
  fresh := fun _ _ => rfl
  unserved := fun e he => absurd he (Option.some_ne_none e).symm
  served := fun e he => he.elim (fun hq => absurd hq List.not_mem_nil)
    fun hs => absurd hs (Option.some_ne_none e).symm
  tended := fun e pc ht => absurd ht (Option.some_ne_none pc).symm
  flag := fun e pc ht => absurd ht (Option.some_ne_none pc).symm

section

variable {s : Server}

/-! ## Steps of the threads -/

theorem finished_finish {r : Resources} {e e' : Nat} :
    (r.finish e).finished e' = if e' = e then (r.nodes e).isSome else r.finished e' := by
  show (Function.update r.nodes e _ e').any _ = _
  by_cases he : e' = e
  · rw [if_pos he, he, Function.update_self]
    cases r.nodes e <;> rfl
  · rw [if_neg he, Function.update_of_ne he]
    rfl

/-- A thread moves on. -/
theorem Tended.thread (h : Tended s) {e : Nat} {pc : ThreadPc} (ht : s.threads e = some pc)
    (hpc : pc ≠ .exited) (pc' : ThreadPc) {lock : Option Owner} {res : Resources}
    (hlock : Moves s.lock lock (.client e) pc.inSection pc'.inSection)
    (halloc : res.allocated = s.res.allocated)
    (hsome : ∀ e', (res.nodes e').isSome = (s.res.nodes e').isSome)
    (hflag : (s.res.nodes e).isSome = true → res.finished e = pc'.isFlagged)
    (hother : ∀ e', e' ≠ e → res.finished e' = s.res.finished e') :
    Tended { s with
      lock := lock
      threads := Function.update s.threads e (some pc')
      res := res } where
  guards := by
    apply h.guards.moves (o := .client e)
    · show Moves s.lock lock (.client e) ((s.threads e).any ThreadPc.inSection)
        ((Function.update s.threads e (some pc') e).any ThreadPc.inSection)
      rw [ht, Function.update_self]
      exact hlock
    · intro o ho
      cases o with
      | main => rfl
      | client e' =>
          show (Function.update s.threads e (some pc') e').any _ = (s.threads e').any _
          rw [Function.update_of_ne fun he => ho (congrArg Owner.client he)]
  walks := h.walks
  fresh := by
    intro e' he'
    have hnone : s.threads e' = none := by
      apply h.fresh e'
      rw [← halloc]
      exact he'
    show Function.update s.threads e (some pc') e' = none
    rw [Function.update_of_ne, hnone]
    rintro rfl
    rw [ht] at hnone
    exact absurd hnone (Option.some_ne_none pc)
  unserved := by
    intro e' he'
    obtain ⟨hnode, hfin⟩ := h.unserved e' he'
    refine ⟨(hsome e').trans hnode, ?_⟩
    show res.finished e' = false
    rw [hother, hfin]
    rintro rfl
    rw [h.fresh e' (Or.inr he')] at ht
    exact absurd ht (Option.some_ne_none pc).symm
  served := by
    intro e' he'
    obtain ⟨hthread, hnode⟩ := h.served e' he'
    refine ⟨?_, (hsome e').trans hnode⟩
    show (Function.update s.threads e (some pc') e').isSome = true
    by_cases he : e' = e
    · rw [he, Function.update_self]
      rfl
    · rw [Function.update_of_ne he]
      exact hthread
  tended := by
    intro e' pc₀ ht'
    change Function.update s.threads e (some pc') e' = some pc₀ at ht'
    by_cases he : e' = e
    · rw [he]
      exact Or.inr ((h.tended e pc ht).resolve_left hpc)
    · rw [Function.update_of_ne he] at ht'
      exact h.tended e' pc₀ ht'
  flag := by
    intro e' pc₀ ht' hnode
    change Function.update s.threads e (some pc') e' = some pc₀ at ht'
    change (res.nodes e').isSome = true at hnode
    show res.finished e' = pc₀.isFlagged
    rw [hsome] at hnode
    by_cases he : e' = e
    · rw [he, Function.update_self] at ht'
      rw [he] at hnode ⊢
      rw [← Option.some.inj ht']
      exact hflag hnode
    · rw [Function.update_of_ne he] at ht'
      rw [hother e' he]
      exact h.flag e' pc₀ ht' hnode

theorem Tended.client (h : Tended s) (e : Nat) : Tended (s.clientStep e) := by
  cases ht : s.threads e with
  | none =>
      rw [clientStep, ht]
      exact h
  | some pc =>
      -- of a thread that is not at the flag the node stays as it is
      have hmoves : ∀ {lock} (pc' : ThreadPc), pc ≠ .exited → pc'.isFlagged = pc.isFlagged →
          Moves s.lock lock (.client e) pc.inSection pc'.inSection →
          Tended { s with lock := lock, threads := Function.update s.threads e (some pc') } := by
        intro lock pc' hne hsame hlock
        apply h.thread ht hne pc' hlock rfl (fun _ => rfl)
        · rw [hsame]
          exact h.flag e pc ht
        · exact fun _ _ => rfl
      have hheld : pc.inSection = true → s.lock = some (.client e) := by
        intro hin
        apply (h.guards (.client e)).mpr
        show (s.threads e).any _ = true
        rw [ht]
        exact hin
      simp only [clientStep, ht]
      cases pc with
      | running =>
          dsimp only
          split
          · rename_i hfree
            exact hmoves .locked (by decide) rfl (.taken hfree rfl rfl)
          · exact h
      | locked =>
          apply @Tended.thread s h e .locked ht (by decide) .flagged s.lock (s.res.finish e)
            (.kept rfl rfl) rfl
          · intro e'
            rw [Resources.isSome_finish]
          · intro hnode
            rw [finished_finish, if_pos rfl, hnode]
            rfl
          · intro e' he'
            rw [finished_finish, if_neg he']
      | flagged => exact hmoves .unlocked (by decide) rfl (.released (hheld rfl) rfl rfl)
      | unlocked => exact hmoves .exited (by decide) rfl (.kept rfl rfl)
      | exited => exact h

/-! ## Steps of `main` -/

theorem finished_openDevice (r : Resources) (e e' : Nat) :
    (r.openDevice e).finished e' = r.finished e' := by
  show (Function.update r.nodes e _ e').any _ = _
  by_cases he : e' = e
  · rw [he, Function.update_self, Resources.finished]
    cases r.nodes e <;> rfl
  · rw [Function.update_of_ne he]
    rfl

/-- `main` goes on, with no new thread and no new node in its hands. -/
theorem Tended.goto (h : Tended s) {main : MainPc} {lock : Option Owner} {res : Resources}
    (hlock : Moves s.lock lock .main s.main.inSection main.inSection)
    (hwalks : main.Walks s.queue) (hstarted : main.started = s.main.started)
    (hunstarted : ∀ e, main.unstarted = some e → s.main.unstarted = some e)
    (halloc : res.allocated = s.res.allocated)
    (hsome : ∀ e, (res.nodes e).isSome = (s.res.nodes e).isSome)
    (hfinished : ∀ e, res.finished e = s.res.finished e) :
    Tended ⟨main, lock, s.queue, s.threads, res⟩ where
  guards := by
    apply h.guards.moves (o := .main) hlock
    intro o ho
    cases o with
    | main => exact absurd rfl ho
    | client e => rfl
  walks := hwalks
  fresh := by
    intro e he
    apply h.fresh e
    rw [← halloc]
    exact he.imp_right (hunstarted e)
  unserved := by
    intro e he
    obtain ⟨hnode, hfin⟩ := h.unserved e (hunstarted e he)
    exact ⟨(hsome e).trans hnode, (hfinished e).trans hfin⟩
  served := by
    intro e he
    obtain ⟨hthread, hnode⟩ := h.served e (he.imp_right fun hs => hstarted.symm.trans hs)
    exact ⟨hthread, (hsome e).trans hnode⟩
  tended := by
    intro e pc ht
    exact (h.tended e pc ht).imp_right fun hin => hin.imp_right fun hs => hstarted.trans hs
  flag := by
    intro e pc ht hnode
    exact (hfinished e).trans (h.flag e pc ht ((hsome e).symm.trans hnode))

theorem Tended.accept (h : Tended s) (hm : s.main = .loop) (result : Accepted) :
    Tended (s.accept result) := by
  have hgoto : ∀ {main : MainPc} {res : Resources}, main.inSection = false → main.started = none →
      main.unstarted = none → main.Walks s.queue → res.allocated = s.res.allocated →
      res.nodes = s.res.nodes → Tended ⟨main, s.lock, s.queue, s.threads, res⟩ := by
    intro main res hin hstarted hunstarted hwalks halloc hnodes
    apply h.goto
    · exact .kept rfl (by rw [hin, hm]; rfl)
    · exact hwalks
    · rw [hstarted, hm]
      rfl
    · intro e he
      rw [hunstarted] at he
      exact absurd he (Option.some_ne_none e).symm
    · exact halloc
    · exact fun e => by rw [hnodes]
    · exact fun e => by rw [Resources.finished, hnodes, Resources.finished]
  cases result with
  | conn => exact hgoto rfl rfl rfl trivial rfl rfl
  | again => exact hgoto rfl rfl rfl trivial rfl rfl
  | error => exact hgoto rfl rfl rfl trivial rfl rfl
  | stopped => exact hgoto rfl rfl rfl trivial rfl rfl

theorem Tended.malloc (h : Tended s) (hn : s.Numbered) {connfd : Nat}
    (hm : s.main = .malloc connfd) :
    Tended { s with main := .openDevice s.res.allocated, res := s.res.malloc connfd } := by
  have hnew : s.threads s.res.allocated = none := h.fresh _ (Or.inl le_rfl)
  have hold : ∀ e, e ≠ s.res.allocated → (s.res.malloc connfd).nodes e = s.res.nodes e := by
    intro e he
    rw [Resources.nodes_malloc, Function.update_of_ne he]
  have hne : ∀ e pc, s.threads e = some pc → e ≠ s.res.allocated := by
    rintro e pc ht rfl
    rw [hnew] at ht
    exact absurd ht (Option.some_ne_none pc).symm
  refine ⟨?_, trivial, ?_, ?_, ?_, ?_, ?_⟩
  · apply h.guards.moves (o := .main)
    · exact .kept rfl (by rw [inside, inside, hm]; rfl)
    · intro o ho
      cases o with
      | main => exact absurd rfl ho
      | client e => rfl
  · intro e he
    rcases he with hlt | hpending
    · exact h.fresh e (Or.inl (Nat.le_of_succ_le hlt))
    · rw [← Option.some.inj hpending]
      exact hnew
  · intro e he
    rw [← Option.some.inj he, Resources.finished, Resources.nodes_malloc, Function.update_self]
    exact ⟨rfl, rfl⟩
  · intro e he
    have hq : e ∈ s.queue := he.resolve_right (Option.some_ne_none e).symm
    obtain ⟨hthread, hnode⟩ := h.served e (Or.inl hq)
    refine ⟨hthread, ?_⟩
    show ((s.res.malloc connfd).nodes e).isSome = true
    rwa [hold e (hn.queue e hq).ne]
  · intro e pc ht
    have hin := h.tended e pc ht
    rw [hm] at hin
    exact hin
  · intro e pc ht hnode
    change ((s.res.malloc connfd).nodes e).isSome = true at hnode
    show (s.res.malloc connfd).finished e = pc.isFlagged
    rw [hold e (hne e pc ht)] at hnode
    rw [Resources.finished, hold e (hne e pc ht)]
    exact h.flag e pc ht hnode

theorem Tended.create (h : Tended s) (hn : s.Numbered) {e : Nat}
    (hm : s.main = .pthreadCreate e) :
    Tended { s with
      main := .lockQueue e
      threads := Function.update s.threads e (some .running) } := by
  have hpending : s.main.unstarted = some e := by
    rw [hm]
    rfl
  have hnone : s.threads e = none := h.fresh e (Or.inr hpending)
  obtain ⟨hnode, hfin⟩ := h.unserved e hpending
  have hlt : e < s.res.allocated := (hn.pending e (by rw [hm]; rfl)).1
  refine ⟨?_, trivial, ?_, ?_, ?_, ?_, ?_⟩
  · intro o
    cases o with
    | main =>
        have hlock := h.guards .main
        rw [inside, hm] at hlock
        exact hlock
    | client e' =>
        show s.lock = some (.client e') ↔
          (Function.update s.threads e (some .running) e').any ThreadPc.inSection = true
        rw [h.guards (.client e'), inside]
        by_cases he : e' = e
        · rw [he, Function.update_self, hnone]
          rfl
        · rw [Function.update_of_ne he]
  · intro e' he'
    have hle : s.res.allocated ≤ e' := he'.resolve_right (Option.some_ne_none e').symm
    show Function.update s.threads e (some .running) e' = none
    rw [Function.update_of_ne (by omega)]
    exact h.fresh e' (Or.inl hle)
  · exact fun e' he' => absurd he' (Option.some_ne_none e').symm
  · intro e' he'
    show (Function.update s.threads e (some .running) e').isSome = true ∧ _
    by_cases he : e' = e
    · rw [he, Function.update_self]
      exact ⟨rfl, hnode⟩
    · rw [Function.update_of_ne he]
      apply h.served e'
      exact he'.imp_right fun hs => absurd (Option.some.inj hs).symm he
  · intro e' pc ht
    change Function.update s.threads e (some .running) e' = some pc at ht
    by_cases he : e' = e
    · rw [he]
      exact Or.inr (Or.inr rfl)
    · rw [Function.update_of_ne he] at ht
      have hin := h.tended e' pc ht
      rw [hm] at hin
      exact hin.imp_right fun hq => Or.inl (hq.resolve_right (Option.some_ne_none e').symm)
  · intro e' pc ht hsome
    change Function.update s.threads e (some .running) e' = some pc at ht
    by_cases he : e' = e
    · rw [he, Function.update_self] at ht
      rw [he, ← Option.some.inj ht]
      exact hfin
    · rw [Function.update_of_ne he] at ht
      exact h.flag e' pc ht hsome

/-- The nodes of the queue are as they were, and so is every node that has a thread. -/
theorem Tended.createFailed (h : Tended s) {e : Nat} (hm : s.main = .pthreadCreate e) :
    Tended { s with main := .check false, res := s.res.free e } := by
  have hnone : s.threads e = none := h.fresh e (Or.inr (by rw [hm]; rfl))
  have hold : ∀ e', (s.threads e').isSome = true → (s.res.free e).nodes e' = s.res.nodes e' := by
    intro e' ht
    rw [Resources.nodes_free, Function.update_of_ne]
    rintro rfl
    rw [hnone] at ht
    exact Bool.noConfusion ht
  refine ⟨?_, trivial, ?_, ?_, ?_, ?_, ?_⟩
  · apply h.guards.moves (o := .main)
    · exact .kept rfl (by rw [inside, inside, hm]; rfl)
    · intro o ho
      cases o with
      | main => exact absurd rfl ho
      | client e => rfl
  · exact fun e' he' => h.fresh e' (Or.inl (he'.resolve_right (Option.some_ne_none e').symm))
  · exact fun e' he' => absurd he' (Option.some_ne_none e').symm
  · intro e' he'
    have hq : e' ∈ s.queue := he'.resolve_right (Option.some_ne_none e').symm
    obtain ⟨hthread, hnode⟩ := h.served e' (Or.inl hq)
    refine ⟨hthread, ?_⟩
    show ((s.res.free e).nodes e').isSome = true
    rwa [hold e' hthread]
  · intro e' pc ht
    have hin := h.tended e' pc ht
    rw [hm] at hin
    exact hin
  · intro e' pc ht hnode
    change ((s.res.free e).nodes e').isSome = true at hnode
    have hthread : (s.threads e').isSome = true := by
      rw [show s.threads e' = some pc from ht]
      rfl
    show (s.res.free e).finished e' = pc.isFlagged
    rw [hold e' hthread] at hnode
    rw [Resources.finished, hold e' hthread]
    exact h.flag e' pc ht hnode

theorem Tended.insertTail (h : Tended s) {e : Nat} (hm : s.main = .insertTail e) :
    Tended { s with main := .check false, lock := none, queue := s.queue ++ [e] } := by
  have hstarted : s.main.started = some e := by
    rw [hm]
    rfl
  have hheld : s.lock = some .main := by
    apply (h.guards .main).mpr
    rw [inside, hm]
    rfl
  refine ⟨?_, trivial, ?_, ?_, ?_, ?_, h.flag⟩
  · apply h.guards.moves (o := .main)
    · exact .released hheld rfl rfl
    · intro o ho
      cases o with
      | main => exact absurd rfl ho
      | client e => rfl
  · exact fun e' he' => h.fresh e' (Or.inl (he'.resolve_right (Option.some_ne_none e').symm))
  · exact fun e' he' => absurd he' (Option.some_ne_none e').symm
  · intro e' he'
    apply h.served e'
    rcases List.mem_append.mp (he'.resolve_right (Option.some_ne_none e').symm) with hq | hnew
    · exact Or.inl hq
    · rw [List.mem_singleton.mp hnew]
      exact Or.inr hstarted
  · intro e' pc ht
    rcases h.tended e' pc ht with hexit | hq | hs
    · exact Or.inl hexit
    · exact Or.inr (Or.inl (List.mem_append_left _ hq))
    · rw [hstarted] at hs
      rw [← Option.some.inj hs]
      exact Or.inr (Or.inl (List.mem_append_right _ (List.mem_singleton_self e)))

theorem Tended.reap (h : Tended s) (hnd : s.queue.Nodup) {draining : Bool} {e : Nat}
    {rest : List Nat} {outstandingCons : Nat}
    (hm : s.main = .visit draining (e :: rest) outstandingCons)
    (hexit : s.threads e = some .exited) :
    Tended { s with
      main := .visit draining rest outstandingCons
      queue := s.queue.erase e
      res := s.res.reap e } := by
  have hwalks := h.walks
  rw [hm] at hwalks
  obtain ⟨hrest, hsub, hcount⟩ := hwalks
  have hmem := hsub e List.mem_cons_self
  obtain ⟨node, hnode⟩ := Option.isSome_iff_exists.mp (h.served e (Or.inl hmem)).2
  have hnodes : (s.res.reap e).nodes = Function.update s.res.nodes e none := by
    rw [Resources.reap, hnode]
    rfl
  have hnone : s.main.started = none := by
    rw [hm]
    rfl
  refine ⟨?_, ⟨(List.nodup_cons.mp hrest).2, ?_, ?_⟩, ?_, ?_, ?_, ?_, ?_⟩
  · apply h.guards.moves (o := .main)
    · exact .kept rfl (by rw [inside, inside, hm]; rfl)
    · intro o ho
      cases o with
      | main => exact absurd rfl ho
      | client e => rfl
  · intro e' he'
    rw [hnd.mem_erase_iff]
    refine ⟨?_, hsub e' (List.mem_cons_of_mem _ he')⟩
    rintro rfl
    exact (List.nodup_cons.mp hrest).1 he'
  · have hpos := List.length_pos_of_mem hmem
    rw [List.length_cons] at hcount
    rw [List.length_erase_of_mem hmem]
    omega
  · intro e' he'
    rw [allocated_reap] at he'
    exact h.fresh e' (Or.inl (he'.resolve_right (Option.some_ne_none e').symm))
  · exact fun e' he' => absurd he' (Option.some_ne_none e').symm
  · intro e' he'
    obtain ⟨hne, hq⟩ := hnd.mem_erase_iff.mp (he'.resolve_right (Option.some_ne_none e').symm)
    obtain ⟨hthread, hsome⟩ := h.served e' (Or.inl hq)
    refine ⟨hthread, ?_⟩
    show ((s.res.reap e).nodes e').isSome = true
    rwa [hnodes, Function.update_of_ne hne]
  · intro e' pc ht
    rcases h.tended e' pc ht with hdone | hq | hs
    · exact Or.inl hdone
    · by_cases he : e' = e
      · rw [he] at ht
        exact Or.inl (Option.some.inj (ht.symm.trans hexit))
      · exact Or.inr (Or.inl (hnd.mem_erase_iff.mpr ⟨he, hq⟩))
    · rw [hnone] at hs
      exact absurd hs (Option.some_ne_none e').symm
  · intro e' pc ht hsome
    change ((s.res.reap e).nodes e').isSome = true at hsome
    show (s.res.reap e).finished e' = pc.isFlagged
    by_cases he : e' = e
    · rw [he, hnodes, Function.update_self] at hsome
      exact Bool.noConfusion hsome
    · rw [hnodes, Function.update_of_ne he] at hsome
      rw [Resources.finished, hnodes, Function.update_of_ne he]
      exact h.flag e' pc ht hsome

/-- `main` goes on with the queue, the threads and the nodes left alone. -/
theorem Tended.moves (h : Tended s) {main : MainPc} {lock : Option Owner}
    (hlock : Moves s.lock lock .main s.main.inSection main.inSection)
    (hwalks : main.Walks s.queue) (hstarted : main.started = s.main.started)
    (hunstarted : main.unstarted = none) : Tended { s with main := main, lock := lock } := by
  apply h.goto hlock hwalks hstarted
  · intro e he
    rw [hunstarted] at he
    exact absurd he (Option.some_ne_none e).symm
  · rfl
  · exact fun _ => rfl
  · exact fun _ => rfl

theorem Tended.visit (h : Tended s) (hnd : s.queue.Nodup) {draining : Bool} {rest : List Nat}
    {outstandingCons : Nat} (hm : s.main = .visit draining rest outstandingCons) (ok : Bool) :
    Tended (s.mainStep ok) := by
  have hwalks := h.walks
  rw [hm] at hwalks
  obtain ⟨hrest, hsub, hcount⟩ := hwalks
  have hheld : s.lock = some .main := by
    apply (h.guards .main).mpr
    rw [inside, hm]
    rfl
  simp only [mainStep, hm]
  cases rest with
  | nil =>
      have hover : ∀ main : MainPc, main.inSection = false → main.started = none →
          main.unstarted = none → main.Walks s.queue →
          Tended { s with main := main, lock := none } :=
        fun main hin hstarted hunstarted hw =>
          h.moves (.released hheld rfl hin) hw (by rw [hstarted, hm]; rfl) hunstarted
      cases draining with
      | false => exact hover .loop rfl rfl rfl trivial
      | true =>
          by_cases hzero : outstandingCons = 0
          · have hempty : s.queue = [] := by
              apply List.length_eq_zero_iff.mp
              rw [List.length_nil] at hcount
              omega
            simp only [if_pos hzero, if_true]
            exact hover .exited rfl rfl rfl hempty
          · simp only [if_neg hzero, if_true]
            exact hover (.check true) rfl rfl rfl trivial
  | cons e rest =>
      dsimp only
      split
      · split
        · rename_i _ hexit
          exact h.reap hnd hm hexit
        · exact h
      · apply @Tended.moves s h (.visit draining rest (outstandingCons + 1))
        · exact .kept rfl (by rw [hm]; rfl)
        · rw [List.length_cons] at hcount
          refine ⟨(List.nodup_cons.mp hrest).2,
            fun e' he' => hsub e' (List.mem_cons_of_mem _ he'), ?_⟩
          omega
        · rw [hm]
          rfl
        · rfl

theorem Tended.main (h : Tended s) (hn : s.Numbered) (hnd : s.queue.Nodup) (ok : Bool) :
    Tended (s.mainStep ok) := by
  -- an attempt that fails before there is a thread
  have hfails : s.main.inSection = false → s.main.started = none →
      Tended { s with main := .check false } := fun hin hs =>
    @Tended.moves s h (.check false) s.lock (.kept rfl hin.symm) trivial hs.symm rfl
  cases hm : s.main with
  | loop =>
      simp only [mainStep, hm]
      exact h
  | malloc connfd =>
      rw [hm] at hfails
      simp only [mainStep, hm]
      cases ok with
      | false => exact hfails rfl rfl
      | true => exact h.malloc hn hm
  | openDevice e =>
      rw [hm] at hfails
      simp only [mainStep, hm]
      cases ok with
      | false => exact hfails rfl rfl
      | true =>
          apply @Tended.goto s h (.pthreadCreate e) s.lock (s.res.openDevice e)
          · exact .kept rfl (by rw [hm]; rfl)
          · trivial
          · rw [hm]
            rfl
          · rw [hm]
            exact fun _ he => he
          · rfl
          · exact fun e' => by rw [Resources.isSome_openDevice]
          · exact finished_openDevice s.res e
  | pthreadCreate e =>
      simp only [mainStep, hm]
      cases ok with
      | false => exact h.createFailed hm
      | true => exact h.create hn hm
  | lockQueue e =>
      simp only [mainStep, hm]
      split
      · rename_i hfree
        exact h.moves (.taken hfree rfl rfl) trivial (by rw [hm]; rfl) rfl
      · exact h
  | insertTail e =>
      simp only [mainStep, hm]
      exact h.insertTail hm
  | check draining =>
      simp only [mainStep, hm]
      split
      · rename_i hfree
        apply h.moves (.taken hfree rfl rfl)
        · exact ⟨hnd, fun _ he => he, Nat.zero_add _⟩
        · rw [hm]
          rfl
        · rfl
      · exact h
  | visit draining rest outstandingCons => exact h.visit hnd hm ok
  | exited =>
      simp only [mainStep, hm]
      exact h

/-- The server's invariant, with the links of its queue. -/
def InOrder (s : Server) : Prop := Tended s ∧ ∃ ls, LinkedTo ls s

theorem inOrder_start : InOrder start :=
  ⟨tended_start, _, linkedTo_start ⟨fun _ => none, fun _ => .head ()⟩⟩

theorem InOrder.step (h : InOrder s) (turn : ServerTurn) : InOrder (s.step turn) := by
  obtain ⟨htended, ls, hlinked⟩ := h
  refine ⟨?_, _, hlinked.step (turn, ⟨none, .head ()⟩)⟩
  cases turn with
  | accept result =>
      rw [Server.step]
      split
      · rename_i hm
        exact htended.accept hm result
      · exact htended
  | main ok => exact htended.main hlinked.numbered (hlinked.chain.proper.nodup ()) ok
  | client e => exact htended.client e

end

end Server

end AesdChar
