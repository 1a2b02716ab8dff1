import AesdChar.Lib.Runs

/-!
# Forward simulation

A machine takes inputs one at a time and gives a list of events at each.  One machine simulates
another when every step of the other is answered by a run with the same events, from related states
to related states.  The inputs of the answering run are its own.
-/

structure Machine (σ ι ε : Type) where
  step : σ → ι → σ
  out : σ → ι → List ε

namespace Machine

variable {σ τ ι κ ε : Type}

def run (m : Machine σ ι ε) (s : σ) (is : List ι) : σ := is.foldl m.step s

/-- The events of a run, in order. -/
def trace (m : Machine σ ι ε) : σ → List ι → List ε
  | _, [] => []
  | s, i :: is => m.out s i ++ m.trace (m.step s i) is

theorem run_append (m : Machine σ ι ε) (s : σ) (is js : List ι) :
    m.run s (is ++ js) = m.run (m.run s is) js := List.foldl_append

theorem trace_append (m : Machine σ ι ε) (s : σ) (is js : List ι) :
    m.trace s (is ++ js) = m.trace s is ++ m.trace (m.run s is) js := by
  induction is generalizing s with
  | nil => rfl
  | cons i is ih => rw [List.cons_append, trace, trace, ih, List.append_assoc]; rfl

/-- `m'` answers each step that `m` takes under the guard. -/
def Simulates (m : Machine σ ι ε) (m' : Machine τ κ ε) (guard : σ → ι → Prop)
    (rel : σ → τ → Prop) : Prop :=
  ∀ s t i, rel s t → guard s i →
    ∃ js, rel (m.step s i) (m'.run t js) ∧ m'.trace t js = m.out s i

theorem Simulates.run {m : Machine σ ι ε} {m' : Machine τ κ ε} {guard : σ → ι → Prop}
    {rel : σ → τ → Prop} (h : Simulates m m' guard rel) {s : σ} {t : τ} (hrel : rel s t)
    {is : List ι} (hguard : Runs.Guarded m.step guard s is) :
    ∃ js, rel (m.run s is) (m'.run t js) ∧ m'.trace t js = m.trace s is := by
  induction is generalizing s t with
  | nil => exact ⟨[], hrel, rfl⟩
  | cons i is ih =>
      obtain ⟨js, hstep, hout⟩ := h s t i hrel hguard.1
      obtain ⟨ks, hrun, htrace⟩ := ih hstep hguard.2
      refine ⟨js ++ ks, ?_, ?_⟩
      · rw [run_append]
        exact hrun
      · rw [trace_append, hout, htrace, trace]

/-! ## Telling less -/

variable {ε' : Type}

def hide (m : Machine σ ι ε) (f : ε → Option ε') : Machine σ ι ε' :=
  ⟨m.step, fun s i => (m.out s i).filterMap f⟩

theorem trace_hide (m : Machine σ ι ε) (f : ε → Option ε') (s : σ) (is : List ι) :
    (m.hide f).trace s is = (m.trace s is).filterMap f := by
  induction is generalizing s with
  | nil => rfl
  | cons i is ih =>
      rw [trace, trace, List.filterMap_append, ih]
      rfl

theorem Simulates.hide {m : Machine σ ι ε} {m' : Machine τ κ ε} {guard : σ → ι → Prop}
    {rel : σ → τ → Prop} (h : Simulates m m' guard rel) (f : ε → Option ε') :
    Simulates (m.hide f) (m'.hide f) guard rel := by
  intro s t i hrel hguard
  obtain ⟨js, hstep, htrace⟩ := h s t i hrel hguard
  refine ⟨js, hstep, ?_⟩
  rw [trace_hide, htrace]
  rfl

end Machine
