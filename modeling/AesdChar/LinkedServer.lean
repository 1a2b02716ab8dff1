import AesdChar.ConnectionQueue
import AesdChar.QueueRuns

/-!
# The server on its links

The server once more, with `head` and the `ent` of each node in place of the queue as a list.  A
node that `malloc` returns has any links in it, and so has a node once it has been freed.  What the
server does does not depend on them.
-/

namespace AesdChar

open Chain

/-- The next statement of `main`; the walk over the queue is at a node, or at NULL. -/
inductive LinkedPc where
  | loop
  | malloc (connfd : Nat)
  | openDevice (e : Nat)
  | pthreadCreate (e : Nat)
  | lockQueue (e : Nat)
  | insertTail (e : Nat)
  | check (draining : Bool)
  | visit (draining : Bool) (e : Option Nat) (outstandingCons : Nat)
  | exited

structure LinkedServer where
  main : LinkedPc
  lock : Option Owner
  -- `head` is the one head
  links : Memory Unit Nat
  threads : Nat → Option ThreadPc
  res : Resources

/-- What `malloc` and `free` leave in the links of a node. -/
structure Stale where
  tqeNext : Option Nat
  tqePrev : Loc Unit Nat

/-- The node `e` has been handed out or given back. -/
def scribble (links : Memory Unit Nat) (e : Nat) (stale : Stale) : Memory Unit Nat :=
  (links.setFirst (.entry e) stale.tqeNext).setLast (.entry e) stale.tqePrev

namespace LinkedServer

def accept (s : LinkedServer) : Accepted → LinkedServer
  | .conn => { s with main := .malloc s.res.accepted, res := s.res.accept }
  | .again => { s with main := .check false }
  | .error => { s with main := .check true }
  | .stopped => { s with main := .check true }

def mainStep (s : LinkedServer) (ok : Bool) (stale : Stale) : LinkedServer :=
  match s.main with
  | .loop => s
  | .malloc connfd =>
      if ok then
        { s with
          main := .openDevice s.res.allocated
          links := scribble s.links s.res.allocated stale
          res := s.res.malloc connfd }
      else { s with main := .check false }
  | .openDevice e =>
      if ok then { s with main := .pthreadCreate e, res := s.res.openDevice e }
      else { s with main := .check false }
  | .pthreadCreate e =>
      if ok then
        { s with main := .lockQueue e, threads := Function.update s.threads e (some .running) }
      else
        { s with main := .check false, links := scribble s.links e stale, res := s.res.free e }
  | .lockQueue e =>
      if s.lock = none then { s with main := .insertTail e, lock := some .main } else s
  | .insertTail e =>
      { s with main := .check false, lock := none, links := tailqInsertTail s.links () e }
  | .check draining =>
      if s.lock = none then
        { s with main := .visit draining (tailqFirst s.links ()) 0, lock := some .main }
      else s
  | .visit draining none outstandingCons =>
      { s with
        lock := none
        main :=
          if draining then (if outstandingCons = 0 then .exited else .check true) else .loop }
  | .visit draining (some e) outstandingCons =>
      -- `TAILQ_FOREACH_SAFE` takes it before the body runs
      let next := tailqNext s.links e
      if s.res.finished e then
        if s.threads e = some .exited then
          { s with
            main := .visit draining next outstandingCons
            links := scribble (tailqRemove s.links () e) e stale
            res := s.res.reap e }
        else s
      else { s with main := .visit draining next (outstandingCons + 1) }
  | .exited => s

def clientStep (s : LinkedServer) (e : Nat) : LinkedServer :=
  match s.threads e with
  | some .running =>
      if s.lock = none then
        { s with lock := some (.client e), threads := Function.update s.threads e (some .locked) }
      else s
  | some .locked =>
      { s with
        res := s.res.finish e
        threads := Function.update s.threads e (some .flagged) }
  | some .flagged =>
      { s with lock := none, threads := Function.update s.threads e (some .unlocked) }
  | some .unlocked => { s with threads := Function.update s.threads e (some .exited) }
  | some .exited => s
  | none => s

def step (s : LinkedServer) (turn : ServerTurn × Stale) : LinkedServer :=
  match turn.1 with
  | .accept result =>
      match s.main with
      | .loop => s.accept result
      | _ => s
  | .main ok => s.mainStep ok turn.2
  | .client e => s.clientStep e

/-- Listening, with the queue initialised in memory that has anything in it. -/
def start (links : Memory Unit Nat) : LinkedServer where
  main := .loop
  lock := none
  links := tailqInit links ()
  threads := fun _ => none
  res := ⟨0, 0, 0, ∅, ∅, fun _ => none, []⟩

end LinkedServer

/-! ## The links are those of the queue -/

/-- Where `main` is, by the node the walk is at. -/
def MainPc.linked : MainPc → LinkedPc
  | .loop => .loop
  | .malloc connfd => .malloc connfd
  | .openDevice e => .openDevice e
  | .pthreadCreate e => .pthreadCreate e
  | .lockQueue e => .lockQueue e
  | .insertTail e => .insertTail e
  | .check draining => .check draining
  | .visit draining rest outstandingCons => .visit draining rest.head? outstandingCons
  | .exited => .exited

/-- The rest of a walk is the end of the queue. -/
def MainPc.Remains (queue : List Nat) : MainPc → Prop
  | .visit _ rest _ => rest <:+ queue
  | _ => True

/-- Nodes are numbered as they are allocated, and the pending one is not in the queue. -/
structure Server.Numbered (s : Server) : Prop where
  queue : ∀ e ∈ s.queue, e < s.res.allocated
  pending : ∀ e, s.main.pending = some e → e < s.res.allocated ∧ e ∉ s.queue
  remains : s.main.Remains s.queue

structure LinkedTo (ls : LinkedServer) (s : Server) : Prop where
  main : ls.main = s.main.linked
  lock : ls.lock = s.lock
  threads : ls.threads = s.threads
  res : ls.res = s.res
  chain : Chains ls.links fun _ => s.queue
  numbered : s.Numbered

theorem scribble_chains {m : Memory Unit Nat} {queue : List Nat} (h : Chains m fun _ => queue)
    {e : Nat} (he : e ∉ queue) (stale : Stale) : Chains (scribble m e stale) fun _ => queue where
  proper := h.proper
  tailed := by
    intro u
    apply (h.tailed u).congr (h.proper.nodup u)
    intro x hx
    have hne : x ≠ .entry e := by
      rintro rfl
      rcases List.mem_cons.mp hx with heq | hmem
      · exact absurd heq (by simp)
      · obtain ⟨y, hy, heq⟩ := List.mem_map.mp hmem
        exact he (Loc.entry.inj heq ▸ hy)
    rw [scribble]
    exact ⟨Memory.first_setFirst_of_ne _ _ hne, Memory.last_setLast_of_ne _ hne⟩

theorem update_unit {queue new : List Nat} (u : Unit) :
    Function.update (fun _ : Unit => queue) u new = fun _ => new := by
  funext v
  exact Function.update_self _ _ _

@[simp] theorem allocated_reap (r : Resources) (e : Nat) : (r.reap e).allocated = r.allocated := by
  rw [Resources.reap]
  cases r.nodes e <;> rfl

section

variable {s s' : Server} {ls : LinkedServer}

/-- A step that leaves the queue alone and keeps or forgets the pending node. -/
theorem Server.Numbered.same (h : s.Numbered) (hqueue : s'.queue = s.queue)
    (halloc : s'.res.allocated = s.res.allocated)
    (hpending : ∀ e, s'.main.pending = some e → s.main.pending = some e)
    (hremains : s'.main.Remains s.queue) : s'.Numbered where
  queue := by
    rw [hqueue, halloc]
    exact h.queue
  pending := by
    rw [hqueue, halloc]
    exact fun e he => h.pending e (hpending e he)
  remains := by
    rw [hqueue]
    exact hremains

theorem LinkedTo.accept (h : LinkedTo ls s) (result : Accepted) :
    LinkedTo (ls.accept result) (s.accept result) := by
  have hnone : ∀ {e}, none = some e → s.main.pending = some e :=
    fun he => absurd he (Option.some_ne_none _).symm
  cases result with
  | conn =>
      refine ⟨?_, h.lock, h.threads, ?_, h.chain, h.numbered.same rfl rfl (fun _ => hnone) trivial⟩
      · rw [LinkedServer.accept, h.res]
        rfl
      · rw [LinkedServer.accept, h.res]
        rfl
  | again =>
      exact ⟨rfl, h.lock, h.threads, h.res, h.chain,
        h.numbered.same rfl rfl (fun _ => hnone) trivial⟩
  | error =>
      exact ⟨rfl, h.lock, h.threads, h.res, h.chain,
        h.numbered.same rfl rfl (fun _ => hnone) trivial⟩
  | stopped =>
      exact ⟨rfl, h.lock, h.threads, h.res, h.chain,
        h.numbered.same rfl rfl (fun _ => hnone) trivial⟩

theorem LinkedTo.client (h : LinkedTo ls s) (e : Nat) :
    LinkedTo (ls.clientStep e) (s.clientStep e) := by
  rw [LinkedServer.clientStep, Server.clientStep, h.threads]
  have hsame : ∀ {lock threads res}, res.allocated = s.res.allocated →
      LinkedTo ⟨ls.main, lock, ls.links, threads, res⟩ ⟨s.main, lock, s.queue, threads, res⟩ :=
    fun halloc => ⟨h.main, rfl, rfl, rfl, h.chain,
      h.numbered.same rfl halloc (fun _ he => he) h.numbered.remains⟩
  cases s.threads e with
  | none => exact h
  | some pc =>
      cases pc with
      | running =>
          simp only [h.lock, h.res]
          split
          · exact hsame rfl
          · exact h
      | locked =>
          simp only [h.lock, h.res]
          exact hsame rfl
      | flagged =>
          simp only [h.res]
          exact hsame rfl
      | unlocked =>
          simp only [h.lock, h.res]
          exact hsame rfl
      | exited => exact h

theorem LinkedTo.insertTail (h : LinkedTo ls s) {e : Nat} (hm : s.main = .insertTail e) (ok : Bool)
    (stale : Stale) : LinkedTo (ls.mainStep ok stale) (s.mainStep ok) := by
  have hmain := h.main
  rw [hm] at hmain
  obtain ⟨hlt, hout⟩ := h.numbered.pending e (by rw [hm]; rfl)
  simp only [LinkedServer.mainStep, Server.mainStep, hm, hmain, MainPc.linked]
  refine ⟨rfl, rfl, h.threads, h.res, ?_, ?_, ?_, trivial⟩
  · have hchain := insertTail_chains h.chain () fun _ => hout
    rwa [update_unit] at hchain
  · intro x hx
    rcases List.mem_append.mp hx with hx | hx
    · exact h.numbered.queue x hx
    · rwa [List.mem_singleton.mp hx]
  · exact fun x hx => absurd hx (Option.some_ne_none x).symm

/-- The walk: a node whose thread is done is taken out and freed, and the walk goes on with the
node that came behind it. -/
theorem LinkedTo.visit (h : LinkedTo ls s) {draining : Bool} {rest : List Nat}
    {outstandingCons : Nat} (hm : s.main = .visit draining rest outstandingCons) (ok : Bool)
    (stale : Stale) : LinkedTo (ls.mainStep ok stale) (s.mainStep ok) := by
  have hmain := h.main
  rw [hm] at hmain
  have hremains := h.numbered.remains
  rw [hm] at hremains
  cases rest with
  | nil =>
      simp only [LinkedServer.mainStep, Server.mainStep, hm, hmain, MainPc.linked, List.head?_nil]
      have hpc : ∀ main : MainPc, main.pending = none → main.Remains s.queue →
          LinkedTo ⟨main.linked, none, ls.links, ls.threads, ls.res⟩
            ⟨main, none, s.queue, s.threads, s.res⟩ :=
        fun main hp hr => ⟨rfl, rfl, h.threads, h.res, h.chain, h.numbered.same rfl rfl
          (fun e he => absurd (hp.symm.trans he) (Option.some_ne_none e).symm) hr⟩
      cases draining with
      | false => exact hpc .loop rfl trivial
      | true =>
          by_cases hc : outstandingCons = 0
          · simp only [if_pos hc]
            exact hpc .exited rfl trivial
          · simp only [if_neg hc]
            exact hpc (.check true) rfl trivial
  | cons e rest =>
      obtain ⟨seen, hsplit⟩ := hremains
      have ht := h.chain.tailed ()
      have hnd := h.chain.proper.nodup ()
      simp only [← hsplit] at ht hnd
      have hseen : e ∉ seen := fun he =>
        (List.nodup_append.mp hnd).2.2 e he e List.mem_cons_self rfl
      have hnext : tailqNext ls.links e = rest.head? := tailqNext_eq ht
      have hnone : ∀ {x}, none = some x → s.main.pending = some x :=
        fun hx => absurd hx (Option.some_ne_none _).symm
      simp only [LinkedServer.mainStep, Server.mainStep, hm, hmain, MainPc.linked, List.head?_cons,
        hnext, h.res, h.threads]
      by_cases hfin : s.res.finished e = true
      · by_cases hexit : s.threads e = some .exited
        · have herase : s.queue.erase e = seen ++ rest := by
            rw [← hsplit, List.erase_append_right _ hseen, List.erase_cons_head]
          have hin : e ∈ s.queue := hsplit ▸ List.mem_append_right _ List.mem_cons_self
          simp only [if_pos hfin, if_pos hexit]
          refine ⟨rfl, h.lock, rfl, rfl, ?_, ?_, ?_, ?_⟩
          · have hchain := @remove_chains _ _ _ _ _ _ h.chain () e hin
            rw [update_unit] at hchain
            apply scribble_chains hchain
            exact (h.chain.proper.nodup ()).not_mem_erase
          · intro x hx
            rw [allocated_reap]
            exact h.numbered.queue x (List.mem_of_mem_erase hx)
          · exact fun x hx => absurd hx (Option.some_ne_none x).symm
          · exact ⟨seen, herase.symm⟩
        · simp only [if_pos hfin, if_neg hexit]
          exact h
      · simp only [if_neg hfin]
        exact ⟨rfl, h.lock, rfl, rfl, h.chain, h.numbered.same rfl rfl (fun _ => hnone)
          ⟨seen ++ [e], by rw [List.append_assoc, List.singleton_append, hsplit]⟩⟩

theorem LinkedTo.malloc (h : LinkedTo ls s) {connfd : Nat} (hm : s.main = .malloc connfd)
    (ok : Bool) (stale : Stale) : LinkedTo (ls.mainStep ok stale) (s.mainStep ok) := by
  have hmain := h.main
  rw [hm] at hmain
  simp only [LinkedServer.mainStep, Server.mainStep, hm, hmain, MainPc.linked, h.res]
  cases ok with
  | false =>
      exact ⟨rfl, h.lock, h.threads, rfl, h.chain, h.numbered.same rfl rfl
        (fun _ he => absurd he (Option.some_ne_none _).symm) trivial⟩
  | true =>
      -- the node is a new one
      have hnew : s.res.allocated ∉ s.queue :=
        fun he => absurd (h.numbered.queue _ he) (lt_irrefl _)
      refine ⟨rfl, h.lock, h.threads, rfl, scribble_chains h.chain hnew stale, ?_, ?_, trivial⟩
      · exact fun e he => Nat.lt_succ_of_lt (h.numbered.queue e he)
      · intro e he
        rw [← Option.some.inj he]
        exact ⟨Nat.lt_succ_self _, hnew⟩

theorem LinkedTo.pthreadCreate (h : LinkedTo ls s) {e : Nat} (hm : s.main = .pthreadCreate e)
    (ok : Bool) (stale : Stale) : LinkedTo (ls.mainStep ok stale) (s.mainStep ok) := by
  have hmain := h.main
  rw [hm] at hmain
  have hp : s.main.pending = some e := by
    rw [hm]
    rfl
  simp only [LinkedServer.mainStep, Server.mainStep, hm, hmain, MainPc.linked, h.res, h.threads]
  cases ok with
  | false =>
      exact ⟨rfl, h.lock, rfl, rfl, scribble_chains h.chain (h.numbered.pending e hp).2 stale,
        h.numbered.same rfl rfl (fun _ he => absurd he (Option.some_ne_none _).symm) trivial⟩
  | true =>
      exact ⟨rfl, h.lock, rfl, rfl, h.chain,
        h.numbered.same rfl rfl (fun _ he => hp.trans he) trivial⟩

theorem LinkedTo.mainStep (h : LinkedTo ls s) (ok : Bool) (stale : Stale) :
    LinkedTo (ls.mainStep ok stale) (s.mainStep ok) := by
  have hmain := h.main
  cases hm : s.main with
  | loop =>
      rw [hm] at hmain
      simp only [LinkedServer.mainStep, Server.mainStep, hm, hmain, MainPc.linked]
      exact h
  | malloc connfd => exact h.malloc hm ok stale
  | openDevice e =>
      rw [hm] at hmain
      have hp : s.main.pending = some e := by
        rw [hm]
        rfl
      simp only [LinkedServer.mainStep, Server.mainStep, hm, hmain, MainPc.linked, h.res]
      cases ok with
      | false =>
          exact ⟨rfl, h.lock, h.threads, rfl, h.chain, h.numbered.same rfl rfl
            (fun _ he => absurd he (Option.some_ne_none _).symm) trivial⟩
      | true =>
          exact ⟨rfl, h.lock, h.threads, rfl, h.chain,
            h.numbered.same rfl rfl (fun _ he => hp.trans he) trivial⟩
  | pthreadCreate e => exact h.pthreadCreate hm ok stale
  | lockQueue e =>
      rw [hm] at hmain
      have hp : s.main.pending = some e := by
        rw [hm]
        rfl
      simp only [LinkedServer.mainStep, Server.mainStep, hm, hmain, MainPc.linked, h.lock]
      split
      · exact ⟨rfl, rfl, h.threads, h.res, h.chain,
          h.numbered.same rfl rfl (fun _ he => hp.trans he) trivial⟩
      · exact h
  | insertTail e => exact h.insertTail hm ok stale
  | check draining =>
      rw [hm] at hmain
      have hfirst : tailqFirst ls.links () = s.queue.head? := tailqFirst_eq (h.chain.tailed ())
      simp only [LinkedServer.mainStep, Server.mainStep, hm, hmain, MainPc.linked, h.lock, hfirst]
      split
      · exact ⟨rfl, rfl, h.threads, h.res, h.chain, h.numbered.same rfl rfl
          (fun _ he => absurd he (Option.some_ne_none _).symm) List.suffix_rfl⟩
      · exact h
  | visit draining rest outstandingCons => exact h.visit hm ok stale
  | exited =>
      rw [hm] at hmain
      simp only [LinkedServer.mainStep, Server.mainStep, hm, hmain, MainPc.linked]
      exact h

theorem LinkedTo.step (h : LinkedTo ls s) (turn : ServerTurn × Stale) :
    LinkedTo (ls.step turn) (s.step turn.1) := by
  obtain ⟨turn, stale⟩ := turn
  cases turn with
  | accept result =>
      have hmain := h.main
      simp only [LinkedServer.step, Server.step, hmain]
      cases hm : s.main with
      | loop => exact h.accept result
      | _ => exact h
  | main ok => exact h.mainStep ok stale
  | client e => exact h.client e

theorem linkedTo_start (links : Memory Unit Nat) : LinkedTo (.start links) .start where
  main := rfl
  lock := rfl
  threads := rfl
  res := rfl
  chain := ⟨⟨fun _ => List.nodup_nil, fun _ _ _ h => absurd h List.not_mem_nil⟩,
    fun _ => tailqInit_tailed links _⟩
  numbered := ⟨fun _ h => absurd h List.not_mem_nil,
    fun _ h => absurd h (Option.some_ne_none _).symm, trivial⟩

end

/-- In every run, with anything in the memory at the start, in nodes that are allocated and in nodes
that have been freed, the server on its links does what the server on the list of nodes does, and
the queue is read off the links as that list. -/
theorem linked_server_follows (links : Memory Unit Nat) (turns : List (ServerTurn × Stale)) :
    let ls := turns.foldl LinkedServer.step (.start links)
    let s := (turns.map Prod.fst).foldl Server.step .start
    ls.main = s.main.linked ∧ ls.lock = s.lock ∧ ls.threads = s.threads ∧ ls.res = s.res ∧
      ∀ fuel, s.queue.length < fuel → tailqForeach fuel ls.links () = some s.queue ∧
        tailqForeachReverse fuel ls.links () = some s.queue.reverse := by
  have hrun : ∀ (ls : LinkedServer) (s : Server), LinkedTo ls s →
      LinkedTo (turns.foldl LinkedServer.step ls) ((turns.map Prod.fst).foldl Server.step s) := by
    induction turns with
    | nil => exact fun _ _ h => h
    | cons turn turns ih => exact fun ls s h => ih _ _ (h.step turn)
  have h := hrun _ _ (linkedTo_start links)
  have ht := h.chain.tailed ()
  exact ⟨h.main, h.lock, h.threads, h.res,
    fun fuel hfuel => ⟨tailqForeach_eq ht hfuel, tailqForeachReverse_eq ht hfuel⟩⟩

end AesdChar
