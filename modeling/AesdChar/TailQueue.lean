import AesdChar.Lib.Chain
import AesdChar.Lib.Loop
import AesdChar.Lib.Runs

/-!
# Tail queues

The macros of `queue.h` on the links of heads and elements.  A `tqh_first` and a `tqe_next` are the
first field of a cell, a `tqh_last` and a `tqe_prev` the last one: `TAILQ_LAST` and `TAILQ_PREV`
rely on the two having one layout.
-/

namespace AesdChar

open Chain

section

variable {η ι : Type}

def tailqFirst (m : Memory η ι) (head : η) : Option ι := m.first (.head head)

def tailqEmpty (m : Memory η ι) (head : η) : Bool := (m.first (.head head)).isNone

def tailqNext (m : Memory η ι) (elm : ι) : Option ι := m.first (.entry elm)

/-- The cell in `tqh_last`, taken for a head. -/
def tailqLast (m : Memory η ι) (head : η) : Option ι := m.first (m.last (m.last (.head head)))

/-- The cell in `tqe_prev`, taken for a head. -/
def tailqPrev (m : Memory η ι) (elm : ι) : Option ι := m.first (m.last (m.last (.entry elm)))

/-- `TAILQ_FOREACH` and `TAILQ_FOREACH_REVERSE`, noting the elements they come by. -/
def foreachBody (next : ι → Option ι) :
    Option ι × List ι → Loop.Step (Option ι × List ι) (List ι)
  | (none, seen) => .done seen
  | (some var, seen) => .next (next var, seen ++ [var])

def tailqForeach (fuel : Nat) (m : Memory η ι) (head : η) : Option (List ι) :=
  Loop.run (foreachBody (tailqNext m)) fuel (tailqFirst m head, [])

def tailqForeachReverse (fuel : Nat) (m : Memory η ι) (head : η) : Option (List ι) :=
  Loop.run (foreachBody (tailqPrev m)) fuel (tailqLast m head, [])

variable [DecidableEq η] [DecidableEq ι]

def tailqInit (m : Memory η ι) (head : η) : Memory η ι :=
  (m.setFirst (.head head) none).setLast (.head head) (.head head)

def tailqConcat (m : Memory η ι) (head1 head2 : η) : Memory η ι :=
  match m.first (.head head2) with
  | none => m
  | some x =>
      let m := m.setFirst (m.last (.head head1)) (m.first (.head head2))
      let m := m.setLast (.entry x) (m.last (.head head1))
      let m := m.setLast (.head head1) (m.last (.head head2))
      tailqInit m head2

def tailqInsertAfter (m : Memory η ι) (head : η) (listelm elm : ι) : Memory η ι :=
  let m := m.setFirst (.entry elm) (m.first (.entry listelm))
  let m :=
    match m.first (.entry elm) with
    | some x => m.setLast (.entry x) (.entry elm)
    | none => m.setLast (.head head) (.entry elm)
  let m := m.setFirst (.entry listelm) (some elm)
  m.setLast (.entry elm) (.entry listelm)

def tailqInsertBefore (m : Memory η ι) (listelm elm : ι) : Memory η ι :=
  let m := m.setLast (.entry elm) (m.last (.entry listelm))
  let m := m.setFirst (.entry elm) (some listelm)
  let m := m.setFirst (m.last (.entry listelm)) (some elm)
  m.setLast (.entry listelm) (.entry elm)

def tailqInsertHead (m : Memory η ι) (head : η) (elm : ι) : Memory η ι :=
  let m := m.setFirst (.entry elm) (m.first (.head head))
  let m :=
    match m.first (.entry elm) with
    | some x => m.setLast (.entry x) (.entry elm)
    | none => m.setLast (.head head) (.entry elm)
  let m := m.setFirst (.head head) (some elm)
  m.setLast (.entry elm) (.head head)

def tailqInsertTail (m : Memory η ι) (head : η) (elm : ι) : Memory η ι :=
  let m := m.setFirst (.entry elm) none
  let m := m.setLast (.entry elm) (m.last (.head head))
  let m := m.setFirst (m.last (.head head)) (some elm)
  m.setLast (.head head) (.entry elm)

def tailqRemove (m : Memory η ι) (head : η) (elm : ι) : Memory η ι :=
  let m :=
    match m.first (.entry elm) with
    | some x => m.setLast (.entry x) (m.last (.entry elm))
    | none => m.setLast (.head head) (m.last (.entry elm))
  m.setFirst (m.last (.entry elm)) (m.first (.entry elm))

/-- The links into a head that has been given the chain of another. -/
def tailqAdopt (m : Memory η ι) (head : η) : Memory η ι :=
  match m.first (.head head) with
  | some x => m.setLast (.entry x) (.head head)
  | none => m.setLast (.head head) (.head head)

def tailqSwap (m : Memory η ι) (head1 head2 : η) : Memory η ι :=
  let swapFirst := m.first (.head head1)
  let swapLast := m.last (.head head1)
  let m := m.setFirst (.head head1) (m.first (.head head2))
  let m := m.setLast (.head head1) (m.last (.head head2))
  let m := m.setFirst (.head head2) swapFirst
  let m := m.setLast (.head head2) swapLast
  tailqAdopt (tailqAdopt m head1) head2

end

/-! ## Reading a queue -/

section

variable {η ι : Type} {m : Memory η ι} {head : η} {elm : ι} {l l₁ l₂ : List ι} {p : Loc η ι}

theorem foreachBody_run {next : ι → Option ι} (hnext : ∀ l₁ elm l₂, l = l₁ ++ elm :: l₂ →
    next elm = l₂.head?) (seen : List ι) {fuel : Nat} (hfuel : l.length < fuel) :
    Loop.run (foreachBody next) fuel (l.head?, seen) = some (seen ++ l) := by
  induction l generalizing seen fuel with
  | nil =>
      obtain ⟨n, rfl⟩ := Nat.exists_eq_succ_of_ne_zero (Nat.ne_of_gt hfuel)
      rw [List.append_nil]
      exact Loop.run_done rfl n
  | cons elm l ih =>
      obtain ⟨n, rfl⟩ := Nat.exists_eq_succ_of_ne_zero (Nat.ne_of_gt (Nat.zero_lt_of_lt hfuel))
      have hbody : foreachBody next ((elm :: l).head?, seen) = .next (l.head?, seen ++ [elm]) := by
        rw [List.head?_cons, foreachBody, hnext [] elm l rfl]
      have htail : ∀ l₁ x l₂, l = l₁ ++ x :: l₂ → next x = l₂.head? := by
        intro l₁ x l₂ hl
        apply hnext (elm :: l₁)
        rw [hl, List.cons_append]
      rw [Nat.succ_eq_add_one, Loop.run_next hbody,
        ih htail _ (Nat.lt_of_succ_lt_succ hfuel), List.append_assoc, List.singleton_append]

theorem tailqFirst_eq (h : Tailed m head l) : tailqFirst m head = l.head? :=
  h.segment.first_eq h.ends

theorem tailqEmpty_eq (h : Tailed m head l) : tailqEmpty m head = l.isEmpty := by
  rw [tailqEmpty, show m.first (.head head) = l.head? from tailqFirst_eq h]
  cases l <;> rfl

theorem tailqNext_eq (h : Tailed m head (l₁ ++ elm :: l₂)) : tailqNext m elm = l₂.head? := by
  obtain ⟨_, _, _, hrest⟩ := segment_append.mp h.segment
  have hend := h.ends
  rw [tip_append] at hend
  exact hrest.first_eq hend

/-- The cell in front of the last one of a segment leads to the last one. -/
theorem first_last_concat (hs : Segment m p (l ++ [elm])) :
    m.first (m.last (tip p (l ++ [elm]))) = some elm := by
  obtain ⟨_, hfirst, hlast, _⟩ := segment_append.mp hs
  rw [tip_append]
  show m.first (m.last (.entry elm)) = some elm
  rw [hlast, hfirst]

theorem tailqLast_eq (h : Tailed m head l) : tailqLast m head = l.getLast? := by
  have hlast := h.last
  have hend := h.ends
  rw [tailqLast, hlast]
  rcases List.eq_nil_or_concat l with rfl | ⟨l', elm, rfl⟩
  · show m.first (m.last (.head head)) = none
    rw [hlast, hend]
  · rw [List.concat_eq_append] at *
    rw [first_last_concat h.segment, List.getLast?_concat]

theorem tailqPrev_eq (h : Tailed m head (l₁ ++ elm :: l₂)) : tailqPrev m elm = l₁.getLast? := by
  obtain ⟨hfront, _, hlast, _⟩ := segment_append.mp h.segment
  rw [tailqPrev, hlast]
  rcases List.eq_nil_or_concat l₁ with rfl | ⟨l', x, rfl⟩
  · show m.first (m.last (.head head)) = none
    rw [h.last, h.ends]
  · rw [List.concat_eq_append] at *
    rw [first_last_concat hfront, List.getLast?_concat]

theorem tailqForeach_eq (h : Tailed m head l) {fuel : Nat} (hfuel : l.length < fuel) :
    tailqForeach fuel m head = some l := by
  rw [tailqForeach, tailqFirst_eq h]
  apply foreachBody_run _ [] hfuel
  rintro l₁ elm l₂ rfl
  exact tailqNext_eq h

theorem tailqForeachReverse_eq (h : Tailed m head l) {fuel : Nat} (hfuel : l.length < fuel) :
    tailqForeachReverse fuel m head = some l.reverse := by
  rw [tailqForeachReverse, tailqLast_eq h, ← List.head?_reverse]
  apply foreachBody_run _ [] (by rwa [List.length_reverse])
  intro l₁ elm l₂ hl
  have hsplit : l = l₂.reverse ++ elm :: l₁.reverse := by
    rw [← List.reverse_reverse l, hl, List.reverse_append, List.reverse_cons, List.append_assoc,
      List.singleton_append]
  rw [hsplit] at h
  rw [tailqPrev_eq h, List.getLast?_reverse]

end

/-! ## Editing one queue -/

section

variable {η ι : Type} [DecidableEq η] [DecidableEq ι] {m : Memory η ι} {head : η} {elm x : ι}
  {q : η → List ι} {l₁ l₂ : List ι}

theorem tailqInit_tailed (m : Memory η ι) (head : η) : Tailed (tailqInit m head) head [] where
  segment := trivial
  last := Memory.last_setLast_self _
  ends := by
    show (tailqInit m head).first (.head head) = none
    rw [tailqInit, Memory.first_setLast, Memory.first_setFirst_self]

theorem tailqInsertAfter_eq (m : Memory η ι) (head : η) (x elm : ι) :
    tailqInsertAfter m head x elm = m.link head (.entry x) elm := by
  rw [tailqInsertAfter, Memory.link, Memory.behind]
  simp only [Memory.first_setFirst_self]
  cases m.first (.entry x) <;> rfl

theorem tailqInsertHead_eq (m : Memory η ι) (head : η) (elm : ι) :
    tailqInsertHead m head elm = m.link head (.head head) elm := by
  rw [tailqInsertHead, Memory.link, Memory.behind]
  simp only [Memory.first_setFirst_self]
  cases m.first (.head head) <;> rfl

theorem tailqInsertTail_eq (hend : m.first (m.last (.head head)) = none) :
    tailqInsertTail m head elm = m.link head (m.last (.head head)) elm := by
  have hbehind : m.behind head (m.last (.head head)) = .head head := by
    rw [Memory.behind, hend]
  have hne : (.head head : Loc η ι) ≠ .entry elm := by simp
  apply Memory.ext
  · simp only [tailqInsertTail, Memory.link, Memory.setFirst, Memory.setLast, hend,
      Function.update_of_ne hne]
  · simp only [tailqInsertTail, Memory.link, Memory.setFirst, Memory.setLast, hbehind]
    rw [Function.update_comm hne.symm]

theorem tailqInsertBefore_eq (hfirst : m.first (m.last (.entry x)) = some x) (hne : x ≠ elm) :
    tailqInsertBefore m x elm = m.link head (m.last (.entry x)) elm := by
  have hbehind : m.behind head (m.last (.entry x)) = .entry x := by
    rw [Memory.behind, hfirst]
  have hne' : (.entry x : Loc η ι) ≠ .entry elm := fun h => hne (Loc.entry.inj h)
  apply Memory.ext
  · simp only [tailqInsertBefore, Memory.link, Memory.setFirst, Memory.setLast, hfirst,
      Function.update_of_ne hne']
  · simp only [tailqInsertBefore, Memory.link, Memory.setFirst, Memory.setLast, hbehind]
    rw [Function.update_comm hne'.symm]

theorem tailqRemove_eq (hself : m.first (.entry elm) ≠ some elm) :
    tailqRemove m head elm = m.unlink head (m.last (.entry elm)) elm := by
  rw [tailqRemove, Memory.unlink, Memory.behind]
  cases hfirst : m.first (.entry elm) with
  | none =>
      have hne : (.entry elm : Loc η ι) ≠ .head head := by simp
      simp only [Memory.last_setLast_of_ne _ hne, Memory.first_setLast, hfirst]
  | some x =>
      have hne : (.entry elm : Loc η ι) ≠ .entry x := by
        intro h
        exact hself (by rw [hfirst, Loc.entry.inj h])
      simp only [Memory.last_setLast_of_ne _ hne, Memory.first_setLast, hfirst]

end

/-! ## Editing two queues -/

section

variable {η ι : Type}

/-- The cell that is to point back to a head with this list, by its first element. -/
abbrev backOf (head : η) (l : List ι) : Loc η ι := l.head?.elim (.head head) .entry

theorem backOf_mem_cells (head : η) (l : List ι) : backOf head l ∈ cells (.head head) l := by
  cases l with
  | nil => exact List.mem_cons_self
  | cons e l => exact entry_mem_cells List.mem_cons_self

theorem backOf_ne_entry {head : η} {l : List ι} {e : ι} (he : l.head? ≠ some e) :
    backOf head l ≠ .entry e := by
  cases l with
  | nil => simp [backOf]
  | cons x l => simpa [backOf] using he

theorem backOf_ne_head {head head' : η} {l : List ι} (hne : l ≠ [] ∨ head ≠ head') :
    backOf head l ≠ .head head' := by
  cases l with
  | nil => simpa [backOf] using hne
  | cons x l => simp [backOf]

end

section

variable {η ι : Type} [DecidableEq η] {q : η → List ι} {l₁ l₂ : List ι}

/-- The lists when those of `head1` and `head2` are set. -/
def setTwo (q : η → List ι) (head1 head2 : η) (l₁ l₂ : List ι) (h : η) : List ι :=
  if h = head1 then l₁ else if h = head2 then l₂ else q h

theorem setTwo_proper (hq : Proper q) {head1 head2 : η} (hnd₁ : l₁.Nodup) (hnd₂ : l₂.Nodup)
    (hdisj : ∀ e ∈ l₁, e ∉ l₂) (hfrom : ∀ e, e ∈ l₁ ∨ e ∈ l₂ → e ∈ q head1 ∨ e ∈ q head2) :
    Proper (setTwo q head1 head2 l₁ l₂) := by
  have hout : ∀ h, h ≠ head1 → h ≠ head2 → ∀ e ∈ q h, e ∉ l₁ ∧ e ∉ l₂ := by
    intro h h₁ h₂ e he
    constructor
    · intro hmem
      rcases hfrom e (Or.inl hmem) with hold | hold
      · exact h₁ (hq.apart h head1 e he hold)
      · exact h₂ (hq.apart h head2 e he hold)
    · intro hmem
      rcases hfrom e (Or.inr hmem) with hold | hold
      · exact h₁ (hq.apart h head1 e he hold)
      · exact h₂ (hq.apart h head2 e he hold)
  constructor
  · intro h
    rw [setTwo]
    split
    · exact hnd₁
    · split
      · exact hnd₂
      · exact hq.nodup h
  · intro h h' e he he'
    rw [setTwo] at he he'
    split at he <;> split at he'
    · simp_all
    · rename_i h₁ _
      split at he'
      · exact absurd he' (hdisj e he)
      · rename_i h₁' h₂'
        exact absurd he (hout h' h₁' h₂' e he').1
    · split at he
      · exact absurd he (hdisj e he')
      · rename_i h₁ _ h₂
        exact absurd he' (hout h h₁ h₂ e he).1
    · rename_i h₁ h₁'
      split at he <;> split at he'
      · simp_all
      · rename_i h₂'
        exact absurd he (hout h' h₁' h₂' e he').2
      · rename_i h₂ _
        exact absurd he' (hout h h₁ h₂ e he).2
      · exact hq.apart h h' e he he'

theorem setTwo_of_ne {head1 head2 h : η} (hout : ¬ (h = head1 ∨ h = head2)) :
    setTwo q head1 head2 l₁ l₂ h = q h := by
  rw [setTwo, if_neg fun h₁ => hout (Or.inl h₁), if_neg fun h₂ => hout (Or.inr h₂)]

end

section

variable {η ι : Type} [DecidableEq η] [DecidableEq ι] {m : Memory η ι} {q : η → List ι}

theorem tailqAdopt_eq (m : Memory η ι) (head : η) :
    tailqAdopt m head =
      m.setLast ((m.first (.head head)).elim (.head head) .entry) (.head head) := by
  rw [tailqAdopt]
  cases m.first (.head head) <;> rfl

theorem tailqSwap_first {head1 head2 : η} :
    (tailqSwap m head1 head2).first =
      Function.update (Function.update m.first (.head head1) (m.first (.head head2)))
        (.head head2) (m.first (.head head1)) := by
  simp only [tailqSwap, tailqAdopt_eq, Memory.first_setLast]
  rfl

theorem tailqSwap_last (hq : Chains m q) {head1 head2 : η} (hne : head1 ≠ head2) :
    (tailqSwap m head1 head2).last =
      Function.update
        (Function.update
          (Function.update (Function.update m.last (.head head1) (m.last (.head head2)))
            (.head head2) (m.last (.head head1)))
          (backOf head1 (q head2)) (.head head1))
        (backOf head2 (q head1)) (.head head2) := by
  have h₁ : m.first (.head head1) = (q head1).head? := tailqFirst_eq (hq.tailed head1)
  have h₂ : m.first (.head head2) = (q head2).head? := tailqFirst_eq (hq.tailed head2)
  have hne' : (.head head1 : Loc η ι) ≠ .head head2 := fun h => hne (Loc.head.inj h)
  simp only [tailqSwap, tailqAdopt_eq, Memory.first_setLast, Memory.last_setFirst,
    Memory.first_setFirst_self, Memory.first_setFirst_of_ne _ _ hne',
    h₁, h₂]
  rfl

theorem tailqSwap_chains (hq : Chains m q) {head1 head2 : η} (hne : head1 ≠ head2) :
    Chains (tailqSwap m head1 head2) (setTwo q head1 head2 (q head2) (q head1)) := by
  have ht₁ := hq.tailed head1
  have ht₂ := hq.tailed head2
  have hdisj : ∀ e ∈ q head2, e ∉ q head1 := fun e h₂ h₁ => hne (hq.proper.apart _ _ e h₁ h₂)
  have hne' : (.head head1 : Loc η ι) ≠ .head head2 := fun h => hne (Loc.head.inj h)
  have hhead : ∀ {e : ι} {l : List ι}, e ∉ l → l.head? ≠ some e :=
    fun he h => he (List.mem_of_head? h)
  have hbacks : backOf head1 (q head2) ≠ backOf head2 (q head1) := by
    cases hl : q head1 with
    | nil => exact backOf_ne_head (Or.inr hne)
    | cons x l =>
        apply backOf_ne_entry
        apply hhead
        intro hx
        exact hdisj x hx (hl ▸ List.mem_cons_self)
  have hset₁ : setTwo q head1 head2 (q head2) (q head1) head1 = q head2 := if_pos rfl
  have hset₂ : setTwo q head1 head2 (q head2) (q head1) head2 = q head1 := by
    rw [setTwo, if_neg hne.symm, if_pos rfl]
  refine hq.edit ?_ (fun h => h = head1 ∨ h = head2) (fun h hout => setTwo_of_ne hout) ?_ ?_
  · apply setTwo_proper hq.proper (hq.proper.nodup _) (hq.proper.nodup _) hdisj
    exact fun e he => he.symm
  · intro h hh
    rcases hh with hh | hh
    · rw [hh, hset₁]
      apply ht₂.moved (hq.proper.nodup _)
      · rw [tailqSwap_first, Function.update_of_ne hne', Function.update_self]
        exact tailqFirst_eq ht₂
      · rw [tailqSwap_last hq hne, Function.update_of_ne hbacks, Function.update_self]
      · intro hnil
        rw [tailqSwap_last hq hne, Function.update_of_ne (backOf_ne_head (Or.inr hne.symm)).symm,
          Function.update_of_ne (backOf_ne_head (Or.inl hnil)).symm, Function.update_of_ne hne',
          Function.update_self]
      · intro e _
        rw [tailqSwap_first, Function.update_of_ne (by simp), Function.update_of_ne (by simp)]
      · intro e he hfirst
        rw [tailqSwap_last hq hne,
          Function.update_of_ne (backOf_ne_entry (hhead (hdisj e he))).symm,
          Function.update_of_ne (backOf_ne_entry hfirst).symm, Function.update_of_ne (by simp),
          Function.update_of_ne (by simp)]
    · rw [hh, hset₂]
      apply ht₁.moved (hq.proper.nodup _)
      · rw [tailqSwap_first, Function.update_self]
        exact tailqFirst_eq ht₁
      · rw [tailqSwap_last hq hne, Function.update_self]
      · intro hnil
        rw [tailqSwap_last hq hne, Function.update_of_ne (backOf_ne_head (Or.inl hnil)).symm,
          Function.update_of_ne (backOf_ne_head (Or.inr hne)).symm, Function.update_self]
      · intro e _
        rw [tailqSwap_first, Function.update_of_ne (by simp), Function.update_of_ne (by simp)]
      · intro e he hfirst
        have hother : (q head2).head? ≠ some e := hhead fun he' => hdisj e he' he
        rw [tailqSwap_last hq hne, Function.update_of_ne (backOf_ne_entry hfirst).symm,
          Function.update_of_ne (backOf_ne_entry hother).symm, Function.update_of_ne (by simp),
          Function.update_of_ne (by simp)]
  · intro x hx
    obtain ⟨hold₁, hnew₁⟩ := hx head1 (Or.inl rfl)
    obtain ⟨hold₂, hnew₂⟩ := hx head2 (Or.inr rfl)
    rw [hset₁] at hnew₁
    rw [hset₂] at hnew₂
    have h₁ : x ≠ .head head1 := fun h => hold₁ (h ▸ List.mem_cons_self)
    have h₂ : x ≠ .head head2 := fun h => hold₂ (h ▸ List.mem_cons_self)
    constructor
    · rw [tailqSwap_first, Function.update_of_ne h₂, Function.update_of_ne h₁]
    · rw [tailqSwap_last hq hne,
        Function.update_of_ne fun h => hnew₂ (by rw [h]; exact backOf_mem_cells _ _),
        Function.update_of_ne fun h => hnew₁ (by rw [h]; exact backOf_mem_cells _ _),
        Function.update_of_ne h₂, Function.update_of_ne h₁]

section

variable {head1 head2 : η} {y : ι} {l : List ι}

theorem tailqConcat_first (hq : Chains m q) (hl : q head2 = y :: l) :
    (tailqConcat m head1 head2).first =
      Function.update (Function.update m.first (tip (.head head1) (q head1)) (some y))
        (.head head2) none := by
  have hfirst : m.first (.head head2) = some y := by
    rw [show m.first (.head head2) = _ from tailqFirst_eq (hq.tailed head2), hl]
    rfl
  rw [tailqConcat, hfirst]
  simp only [tailqInit, Memory.setFirst, Memory.setLast, (hq.tailed head1).last]

theorem tailqConcat_last (hq : Chains m q) (hl : q head2 = y :: l) :
    (tailqConcat m head1 head2).last =
      Function.update
        (Function.update (Function.update m.last (.entry y) (tip (.head head1) (q head1)))
          (.head head1) (m.last (.head head2)))
        (.head head2) (.head head2) := by
  have hfirst : m.first (.head head2) = some y := by
    rw [show m.first (.head head2) = _ from tailqFirst_eq (hq.tailed head2), hl]
    rfl
  have hne : ∀ h : η, (.head h : Loc η ι) ≠ .entry y := fun h => by simp
  rw [tailqConcat, hfirst]
  simp only [tailqInit, Memory.setFirst, Memory.setLast, (hq.tailed head1).last,
    Function.update_of_ne (hne _)]

theorem tailqConcat_tailed (hq : Chains m q) (hne : head1 ≠ head2) (hl : q head2 = y :: l) :
    Tailed (tailqConcat m head1 head2) head1 (q head1 ++ y :: l) := by
  have ht₁ := hq.tailed head1
  have ht₂ := hq.tailed head2
  have hnd₂ := hq.proper.nodup head2
  rw [hl] at ht₂ hnd₂
  have htip : tip (.head head1) (q head1) ∈ cells (.head head1) (q head1) := tip_mem_cells _ _
  have hother : ∀ {x : Loc η ι}, x ∈ cells (.head head1) (q head1) →
      x ∉ cells (.head head2) (y :: l) := by
    intro x hx
    have hout := hq.proper.cells_apart hne hx
    rwa [hl] at hout
  -- behind the first element of the second queue nothing changes
  have hinner : ∀ c ∈ cells (.entry y : Loc η ι) l,
      (tailqConcat m head1 head2).first c = m.first c := by
    intro c hc
    obtain ⟨e, he, rfl⟩ := List.mem_map.mp (show c ∈ (y :: l).map .entry from hc)
    have hout : .entry e ≠ tip (.head head1) (q head1) :=
      fun h => hother htip (h ▸ entry_mem_cells he)
    rw [tailqConcat_first hq hl, Function.update_of_ne (by simp), Function.update_of_ne hout]
  have hfront : Segment (tailqConcat m head1 head2) (.head head1) (q head1) := by
    apply ht₁.segment.congr (nodup_cells_head (hq.proper.nodup head1))
    · intro x hx hxt
      have hout : x ≠ .head head2 := fun h => hother hx (h ▸ List.mem_cons_self)
      rw [tailqConcat_first hq hl, Function.update_of_ne hout, Function.update_of_ne hxt]
    · intro e he
      have hout : (.entry e : Loc η ι) ≠ .entry y :=
        fun h => hother (entry_mem_cells he) (h ▸ entry_mem_cells List.mem_cons_self)
      rw [tailqConcat_last hq hl, Function.update_of_ne (by simp), Function.update_of_ne (by simp),
        Function.update_of_ne hout]
  refine ⟨segment_append.mpr ⟨hfront, ?_, ?_, ?_⟩, ?_, ?_⟩
  · have hout : tip (.head head1) (q head1) ≠ .head head2 :=
      fun h => hother htip (h ▸ List.mem_cons_self)
    rw [tailqConcat_first hq hl, Function.update_of_ne hout, Function.update_self]
  · rw [tailqConcat_last hq hl, Function.update_of_ne (by simp), Function.update_of_ne (by simp),
      Function.update_self]
  · apply ht₂.segment.2.2.congr (nodup_cells_entry hnd₂)
    · exact fun c hc _ => hinner c hc
    · intro e he
      have hout : (.entry e : Loc η ι) ≠ .entry y :=
        fun h => (List.nodup_cons.mp hnd₂).1 (Loc.entry.inj h ▸ he)
      rw [tailqConcat_last hq hl, Function.update_of_ne (by simp), Function.update_of_ne (by simp),
        Function.update_of_ne hout]
  · rw [tip_append, tailqConcat_last hq hl, Function.update_of_ne fun h => hne (Loc.head.inj h),
      Function.update_self, ht₂.last]
    rfl
  · rw [tip_append]
    show (tailqConcat m head1 head2).first (tip (.entry y) l) = none
    rw [hinner _ (tip_mem_cells _ _)]
    exact ht₂.ends

end

theorem tailqConcat_chains (hq : Chains m q) {head1 head2 : η} (hne : head1 ≠ head2) :
    Chains (tailqConcat m head1 head2) (setTwo q head1 head2 (q head1 ++ q head2) []) := by
  cases hl : q head2 with
  | nil =>
      -- nothing is moved
      have hm : tailqConcat m head1 head2 = m := by
        rw [tailqConcat, show m.first (.head head2) = _ from tailqFirst_eq (hq.tailed head2), hl]
        rfl
      have hsame : setTwo q head1 head2 (q head1 ++ []) [] = q := by
        funext h
        rw [setTwo]
        split
        · rename_i h₁
          rw [h₁, List.append_nil]
        · split
          · rename_i h₂
            rw [h₂, hl]
          · rfl
      rw [hm, hsame]
      exact hq
  | cons y l =>
      have hset₁ : setTwo q head1 head2 (q head1 ++ y :: l) [] head1 = q head1 ++ y :: l :=
        if_pos rfl
      have hset₂ : setTwo q head1 head2 (q head1 ++ y :: l) [] head2 = [] := by
        rw [setTwo, if_neg hne.symm, if_pos rfl]
      refine hq.edit ?_ (fun h => h = head1 ∨ h = head2) (fun h hout => setTwo_of_ne hout) ?_ ?_
      · rw [← hl]
        apply setTwo_proper hq.proper
        · exact List.nodup_append.mpr ⟨hq.proper.nodup _, hq.proper.nodup _,
            fun a ha b hb hab => hne (hq.proper.apart _ _ a ha (hab ▸ hb))⟩
        · exact List.nodup_nil
        · exact fun _ _ => List.not_mem_nil
        · exact fun e he => List.mem_append.mp (he.resolve_right List.not_mem_nil)
      · intro h hh
        rcases hh with hh | hh
        · rw [hh, hset₁]
          exact tailqConcat_tailed hq hne hl
        · rw [hh, hset₂]
          refine ⟨trivial, ?_, ?_⟩
          · rw [tailqConcat_last hq hl, Function.update_self]
            rfl
          · rw [tailqConcat_first hq hl]
            exact Function.update_self _ _ _
      · intro x hx
        obtain ⟨hold₁, _⟩ := hx head1 (Or.inl rfl)
        obtain ⟨hold₂, _⟩ := hx head2 (Or.inr rfl)
        rw [hl] at hold₂
        have h₁ : x ≠ .head head1 := fun h => hold₁ (h ▸ List.mem_cons_self)
        have h₂ : x ≠ .head head2 := fun h => hold₂ (h ▸ List.mem_cons_self)
        constructor
        · rw [tailqConcat_first hq hl, Function.update_of_ne h₂, Function.update_of_ne]
          exact fun h => hold₁ (by rw [h]; exact tip_mem_cells _ _)
        · rw [tailqConcat_last hq hl, Function.update_of_ne h₂, Function.update_of_ne h₁,
            Function.update_of_ne]
          exact fun h => hold₂ (h ▸ entry_mem_cells List.mem_cons_self)

end

end AesdChar
