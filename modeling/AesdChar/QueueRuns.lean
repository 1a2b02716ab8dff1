import AesdChar.TailQueue

/-!
# Runs on tail queues

Any sequence of the macros on any number of queues, with elements that have any links in them when
they are inserted, leaves the lists that the macros are named after.
-/

namespace AesdChar

open Chain

inductive QueueOp (η ι : Type) where
  | init (head : η)
  | concat (head1 head2 : η)
  | insertAfter (head : η) (listelm elm : ι)
  | insertBefore (listelm elm : ι)
  | insertHead (head : η) (elm : ι)
  | insertTail (head : η) (elm : ι)
  | remove (head : η) (elm : ι)
  | swap (head1 head2 : η)

section

variable {ι : Type} [DecidableEq ι]

def putAfter (listelm elm : ι) : List ι → List ι
  | [] => []
  | x :: l => if x = listelm then x :: elm :: l else x :: putAfter listelm elm l

def putBefore (listelm elm : ι) : List ι → List ι
  | [] => []
  | x :: l => if x = listelm then elm :: x :: l else x :: putBefore listelm elm l

variable {x elm : ι} {l₁ l₂ : List ι}

theorem putAfter_append (hx : x ∉ l₁) :
    putAfter x elm (l₁ ++ x :: l₂) = l₁ ++ x :: elm :: l₂ := by
  induction l₁ with
  | nil => exact if_pos rfl
  | cons y l ih =>
      rw [List.mem_cons, not_or] at hx
      rw [List.cons_append, putAfter, if_neg (Ne.symm hx.1), ih hx.2, List.cons_append]

theorem putBefore_append (hx : x ∉ l₁) :
    putBefore x elm (l₁ ++ x :: l₂) = l₁ ++ elm :: x :: l₂ := by
  induction l₁ with
  | nil => exact if_pos rfl
  | cons y l ih =>
      rw [List.mem_cons, not_or] at hx
      rw [List.cons_append, putBefore, if_neg (Ne.symm hx.1), ih hx.2, List.cons_append]

theorem putBefore_of_notMem (hx : x ∉ l₁) : putBefore x elm l₁ = l₁ := by
  induction l₁ with
  | nil => rfl
  | cons y l ih =>
      rw [List.mem_cons, not_or] at hx
      rw [putBefore, if_neg (Ne.symm hx.1), ih hx.2]

end

namespace QueueOp

variable {η ι : Type} [DecidableEq η] [DecidableEq ι]

/-- What the macro does to the links. -/
def links (m : Memory η ι) : QueueOp η ι → Memory η ι
  | .init head => tailqInit m head
  | .concat head1 head2 => tailqConcat m head1 head2
  | .insertAfter head listelm elm => tailqInsertAfter m head listelm elm
  | .insertBefore listelm elm => tailqInsertBefore m listelm elm
  | .insertHead head elm => tailqInsertHead m head elm
  | .insertTail head elm => tailqInsertTail m head elm
  | .remove head elm => tailqRemove m head elm
  | .swap head1 head2 => tailqSwap m head1 head2

/-- What it is to do to the lists of elements. -/
def lists (q : η → List ι) : QueueOp η ι → η → List ι
  | .init head => Function.update q head []
  | .concat head1 head2 => setTwo q head1 head2 (q head1 ++ q head2) []
  | .insertAfter head listelm elm => Function.update q head (putAfter listelm elm (q head))
  | .insertBefore listelm elm => fun head => putBefore listelm elm (q head)
  | .insertHead head elm => Function.update q head (elm :: q head)
  | .insertTail head elm => Function.update q head (q head ++ [elm])
  | .remove head elm => Function.update q head ((q head).erase elm)
  | .swap head1 head2 => setTwo q head1 head2 (q head2) (q head1)

/-- An element goes in when it is in no queue, next to one that is in one; one is taken out of the
queue it is in; and a queue is not moved behind itself. -/
def Allowed (q : η → List ι) : QueueOp η ι → Prop
  | .init _ => True
  | .concat head1 head2 => head1 ≠ head2
  | .insertAfter head listelm elm => listelm ∈ q head ∧ ∀ h, elm ∉ q h
  | .insertBefore listelm elm => (∃ h, listelm ∈ q h) ∧ ∀ h, elm ∉ q h
  | .insertHead _ elm => ∀ h, elm ∉ q h
  | .insertTail _ elm => ∀ h, elm ∉ q h
  | .remove head elm => elm ∈ q head
  | .swap _ _ => True

instance [Fintype η] (q : η → List ι) (op : QueueOp η ι) : Decidable (op.Allowed q) :=
  match op with
  | .init _ => inferInstanceAs (Decidable True)
  | .concat _ _ => inferInstanceAs (Decidable (_ ≠ _))
  | .insertAfter .. => inferInstanceAs (Decidable (_ ∧ _))
  | .insertBefore .. => inferInstanceAs (Decidable (_ ∧ _))
  | .insertHead _ elm => inferInstanceAs (Decidable (∀ h, elm ∉ q h))
  | .insertTail _ elm => inferInstanceAs (Decidable (∀ h, elm ∉ q h))
  | .remove .. => inferInstanceAs (Decidable (_ ∈ _))
  | .swap .. => inferInstanceAs (Decidable True)

end QueueOp

/-- The heads are initialised; the elements have anything in them. -/
def Initialised {η ι : Type} (m : Memory η ι) : Prop :=
  ∀ h, m.first (.head h) = none ∧ m.last (.head h) = .head h

theorem initialised_chains {η ι : Type} {m : Memory η ι} (hm : Initialised m) :
    Chains m fun _ => [] where
  proper := ⟨fun _ => List.nodup_nil, fun _ _ _ h => absurd h List.not_mem_nil⟩
  tailed := fun h => ⟨trivial, (hm h).2, (hm h).1⟩

section

variable {η ι : Type} [DecidableEq η] [DecidableEq ι] {m : Memory η ι} {q : η → List ι}

theorem mem_split {l : List ι} {x : ι} (hx : x ∈ l) : ∃ l₁ l₂, l = l₁ ++ x :: l₂ ∧ x ∉ l₁ := by
  obtain ⟨l₁, l₂, hout, hl, _⟩ := List.exists_erase_eq hx
  exact ⟨l₁, l₂, hl, hout⟩

theorem init_chains (hq : Chains m q) (head : η) :
    Chains (tailqInit m head) (Function.update q head []) := by
  refine hq.edit ?_ (· = head) (fun h hne => Function.update_of_ne hne _ _) ?_ ?_
  · exact hq.proper.update List.nodup_nil fun e he => absurd he List.not_mem_nil
  · rintro _ rfl
    rw [Function.update_self]
    exact tailqInit_tailed _ _
  · intro x hx
    have hne : x ≠ .head head := fun h => (hx head rfl).1 (h ▸ List.mem_cons_self)
    exact ⟨Memory.first_setFirst_of_ne _ _ hne, Memory.last_setLast_of_ne _ hne⟩

theorem insertHead_chains (hq : Chains m q) (head : η) {elm : ι} (he : ∀ h, elm ∉ q h) :
    Chains (tailqInsertHead m head elm) (Function.update q head (elm :: q head)) := by
  rw [tailqInsertHead_eq]
  have hsplit : q head = [] ++ q head := rfl
  exact hq.link hsplit he

theorem insertTail_chains (hq : Chains m q) (head : η) {elm : ι} (he : ∀ h, elm ∉ q h) :
    Chains (tailqInsertTail m head elm) (Function.update q head (q head ++ [elm])) := by
  have ht := hq.tailed head
  rw [tailqInsertTail_eq (by rw [ht.last, ht.ends]), ht.last]
  exact hq.link (List.append_nil _).symm he

theorem insertAfter_chains (hq : Chains m q) {head : η} {x elm : ι} (hx : x ∈ q head)
    (he : ∀ h, elm ∉ q h) :
    Chains (tailqInsertAfter m head x elm)
      (Function.update q head (putAfter x elm (q head))) := by
  obtain ⟨l₁, l₂, hl, hout⟩ := mem_split hx
  have hsplit : q head = (l₁ ++ [x]) ++ l₂ := by
    rw [hl, List.append_assoc, List.singleton_append]
  have hlink := hq.link hsplit he
  rw [tip_append, List.append_assoc, List.singleton_append] at hlink
  rw [tailqInsertAfter_eq, hl, putAfter_append hout]
  exact hlink

theorem insertBefore_chains (hq : Chains m q) {head : η} {x elm : ι} (hx : x ∈ q head)
    (he : ∀ h, elm ∉ q h) :
    Chains (tailqInsertBefore m x elm) (fun h => putBefore x elm (q h)) := by
  obtain ⟨l₁, l₂, hl, hout⟩ := mem_split hx
  have hlists : (fun h => putBefore x elm (q h)) =
      Function.update q head (l₁ ++ elm :: x :: l₂) := by
    funext h
    by_cases hh : h = head
    · rw [hh, Function.update_self, hl, putBefore_append hout]
    · rw [Function.update_of_ne hh, putBefore_of_notMem]
      exact fun hx' => hh (hq.proper.apart h head x hx' hx)
  have ht := hq.tailed head
  rw [hl] at ht
  obtain ⟨_, hfirst, hlast, _⟩ := segment_append.mp ht.segment
  have hne : x ≠ elm := fun h => he head (h ▸ hx)
  rw [hlists, @tailqInsertBefore_eq _ _ _ _ m head elm x (by rw [hlast, hfirst]) hne, hlast]
  exact hq.link hl he

theorem remove_chains (hq : Chains m q) {head : η} {elm : ι} (he : elm ∈ q head) :
    Chains (tailqRemove m head elm) (Function.update q head ((q head).erase elm)) := by
  obtain ⟨l₁, l₂, hl, hout⟩ := mem_split he
  have ht := hq.tailed head
  have hnd := hq.proper.nodup head
  rw [hl] at ht hnd
  obtain ⟨_, _, hlast, hrest⟩ := segment_append.mp ht.segment
  have hself : m.first (.entry elm) ≠ some elm := by
    have hend := ht.ends
    rw [tip_append] at hend
    rw [hrest.first_eq hend]
    intro h
    exact (List.nodup_cons.mp (List.nodup_append.mp hnd).2.1).1 (List.mem_of_head? h)
  rw [tailqRemove_eq hself, hlast, hl, List.erase_append_right _ hout, List.erase_cons_head]
  exact hq.unlink hl

theorem swap_self_chains (hq : Chains m q) (head : η) :
    Chains (tailqSwap m head head) (setTwo q head head (q head) (q head)) := by
  have ht := hq.tailed head
  have hlists : setTwo q head head (q head) (q head) = q := by
    funext h
    rw [setTwo]
    split
    · rename_i h₁
      rw [h₁]
    · rfl
  have hback : m.last (backOf head (q head)) = .head head := by
    cases hl : q head with
    | nil =>
        rw [hl] at ht
        exact ht.last
    | cons y l =>
        rw [hl] at ht
        exact ht.segment.2.1
  have hm : tailqSwap m head head = m := by
    apply Memory.ext
    · rw [tailqSwap_first, Function.update_idem, Function.update_eq_self]
    · have hfirst : m.first (.head head) = (q head).head? := tailqFirst_eq ht
      simp only [tailqSwap, tailqAdopt_eq, Memory.setFirst, Memory.setLast, Function.update_idem,
        Function.update_eq_self, hfirst, Function.update_self]
      exact Function.update_eq_self_iff.mpr hback.symm
  rw [hm, hlists]
  exact hq

/-- Each macro does to the links what is to be done to the lists. -/
theorem queueOp_chains (hq : Chains m q) {op : QueueOp η ι} (hop : op.Allowed q) :
    Chains (op.links m) (op.lists q) := by
  cases op with
  | init head => exact init_chains hq head
  | concat head1 head2 => exact tailqConcat_chains hq hop
  | insertAfter head listelm elm => exact insertAfter_chains hq hop.1 hop.2
  | insertBefore listelm elm =>
      obtain ⟨⟨head, hx⟩, he⟩ := hop
      exact insertBefore_chains hq hx he
  | insertHead head elm => exact insertHead_chains hq head hop
  | insertTail head elm => exact insertTail_chains hq head hop
  | remove head elm => exact remove_chains hq hop
  | swap head1 head2 =>
      by_cases hne : head1 = head2
      · rw [← hne]
        exact swap_self_chains hq head1
      · exact tailqSwap_chains hq hne

theorem queueOps_chains (hq : Chains m q) {ops : List (QueueOp η ι)}
    (hops : Runs.Guarded QueueOp.lists (fun q op => op.Allowed q) q ops) :
    Chains (ops.foldl QueueOp.links m) (ops.foldl QueueOp.lists q) := by
  induction ops generalizing m q with
  | nil => exact hq
  | cons op ops ih => exact ih (queueOp_chains hq hops.1) hops.2

/-- After any run of the macros on initialised heads each queue is read back, forwards and
backwards, as the list that the run has made of it. -/
theorem queue_reads_back (hm : Initialised m) {ops : List (QueueOp η ι)}
    (hops : Runs.Guarded QueueOp.lists (fun q op => op.Allowed q) (fun _ => []) ops) (head : η) :
    let m' := ops.foldl QueueOp.links m
    let l := ops.foldl QueueOp.lists (fun _ => []) head
    (∀ fuel, l.length < fuel → tailqForeach fuel m' head = some l ∧
        tailqForeachReverse fuel m' head = some l.reverse) ∧
      tailqEmpty m' head = l.isEmpty ∧ tailqFirst m' head = l.head? ∧
      tailqLast m' head = l.getLast? ∧
      ∀ l₁ elm l₂, l = l₁ ++ elm :: l₂ →
        tailqNext m' elm = l₂.head? ∧ tailqPrev m' elm = l₁.getLast? := by
  have ht := (queueOps_chains (initialised_chains hm) hops).tailed head
  refine ⟨fun fuel hfuel => ⟨tailqForeach_eq ht hfuel, tailqForeachReverse_eq ht hfuel⟩,
    tailqEmpty_eq ht, tailqFirst_eq ht, tailqLast_eq ht, ?_⟩
  intro l₁ elm l₂ hl
  rw [hl] at ht
  exact ⟨tailqNext_eq ht, tailqPrev_eq ht⟩

end

/-- Two queues are filled in four ways, one element is moved, and they are put together. -/
def mixedOps : List (QueueOp Bool Nat) :=
  [.insertTail true 1, .insertHead true 0, .insertAfter true 1 3, .insertBefore 3 2,
    .insertTail false 9, .remove true 0, .insertHead false 0, .swap true false, .concat true false]

theorem mixedOps_read_back :
    tailqForeach 6 (mixedOps.foldl QueueOp.links ⟨fun _ => none, id⟩) true =
        some [0, 9, 1, 2, 3] ∧
      tailqForeachReverse 6 (mixedOps.foldl QueueOp.links ⟨fun _ => none, id⟩) true =
        some [3, 2, 1, 9, 0] :=
  (queue_reads_back (fun _ => ⟨rfl, rfl⟩) (by decide)
    true).1 6 (by decide)

end AesdChar
