import Mathlib.Logic.Function.Basic
import Mathlib.Tactic

/-!
# Chains of cells

A cell is that of a head or that of an entry, and has two fields: the entry that comes first behind
it, and the address of a cell.  In an entry that is the cell before; in a head it is the last cell
of its chain, which is the head itself when nothing is in it.  `Tailed` says that a memory has the
chain of a list behind a head, and the two edits, linking an entry behind a cell and unlinking one,
do to the list what they say.
-/

namespace Chain

inductive Loc (η ι : Type) where
  | head (h : η)
  | entry (e : ι)
deriving DecidableEq

@[ext] structure Memory (η ι : Type) where
  first : Loc η ι → Option ι
  last : Loc η ι → Loc η ι

/-! ## Segments -/

section

variable {η ι : Type} {m m' : Memory η ι} {h : η} {p : Loc η ι} {e : ι} {l l₁ l₂ : List ι}

/-- Behind `p` come the entries of `l`, each pointing back to the cell before. -/
def Segment (m : Memory η ι) : Loc η ι → List ι → Prop
  | _, [] => True
  | p, e :: l => m.first p = some e ∧ m.last (.entry e) = p ∧ Segment m (.entry e) l

/-- The cell that a segment ends in. -/
def tip : Loc η ι → List ι → Loc η ι
  | p, [] => p
  | _, e :: l => tip (.entry e) l

/-- The cells of a segment. -/
def cells (p : Loc η ι) (l : List ι) : List (Loc η ι) := p :: l.map .entry

theorem entry_mem_cells (he : e ∈ l) : .entry e ∈ cells p l :=
  List.mem_cons_of_mem _ (List.mem_map_of_mem he)

theorem tip_append (p : Loc η ι) (l₁ l₂ : List ι) : tip p (l₁ ++ l₂) = tip (tip p l₁) l₂ := by
  induction l₁ generalizing p with
  | nil => rfl
  | cons e l ih => exact ih _

theorem segment_append :
    Segment m p (l₁ ++ l₂) ↔ Segment m p l₁ ∧ Segment m (tip p l₁) l₂ := by
  induction l₁ generalizing p with
  | nil => simp [Segment, tip]
  | cons e l ih => simp only [List.cons_append, Segment, tip, ih, and_assoc]

theorem tip_mem_cells (p : Loc η ι) (l : List ι) : tip p l ∈ cells p l := by
  induction l generalizing p with
  | nil => exact List.mem_singleton_self _
  | cons e l ih => exact List.mem_cons_of_mem _ (ih _)

/-- A memory that agrees on the entries, and on what comes behind each cell but the last, has the
segment as well. -/
theorem Segment.congr (hs : Segment m p l) (hnd : (cells p l).Nodup)
    (hfirst : ∀ x ∈ cells p l, x ≠ tip p l → m'.first x = m.first x)
    (hlast : ∀ e ∈ l, m'.last (.entry e) = m.last (.entry e)) : Segment m' p l := by
  induction l generalizing p with
  | nil => trivial
  | cons e l ih =>
      obtain ⟨hp, he, hrest⟩ := hs
      have hne : p ≠ tip (.entry e) l := fun hp =>
        (List.nodup_cons.mp hnd).1 (hp ▸ tip_mem_cells _ _)
      refine ⟨?_, ?_, ?_⟩
      · rw [hfirst p List.mem_cons_self hne, hp]
      · rw [hlast e List.mem_cons_self, he]
      · exact ih hrest (List.nodup_cons.mp hnd).2
          (fun x hx => hfirst x (List.mem_cons_of_mem _ hx))
          fun x hx => hlast x (List.mem_cons_of_mem _ hx)

/-- What comes behind the first cell of a segment with nothing behind it. -/
theorem Segment.first_eq (hs : Segment m p l) (hend : m.first (tip p l) = none) :
    m.first p = l.head? := by
  cases l with
  | nil => exact hend
  | cons e l => exact hs.1

/-! ## The chain of a head -/

structure Tailed (m : Memory η ι) (h : η) (l : List ι) : Prop where
  segment : Segment m (.head h) l
  last : m.last (.head h) = tip (.head h) l
  ends : m.first (tip (.head h) l) = none

theorem nodup_cells_head (hl : l.Nodup) : (cells (.head h) l).Nodup := by
  refine List.nodup_cons.mpr ⟨?_, hl.map fun _ _ he => Loc.entry.inj he⟩
  intro hmem
  obtain ⟨e, _, he⟩ := List.mem_map.mp hmem
  exact absurd he (by simp)

theorem nodup_cells_entry (hl : (e :: l).Nodup) : (cells (.entry e : Loc η ι) l).Nodup :=
  hl.map fun _ _ he => Loc.entry.inj he

/-- What a chain without repetitions keeps apart: the cells up to an entry, the entry, and those
behind it. -/
theorem apart_of_nodup (hl : (l₁ ++ e :: l₂).Nodup) :
    (∀ x ∈ cells (.head h) l₁, x ≠ .entry e ∧ ∀ y ∈ l₂, x ≠ .entry y) ∧ e ∉ l₂ := by
  have hcells := @nodup_cells_head η ι h _ hl
  rw [cells, List.map_append, ← List.cons_append] at hcells
  obtain ⟨_, hrest, hapart⟩ := List.nodup_append.mp hcells
  refine ⟨fun x hx => ⟨?_, fun y hy => ?_⟩, ?_⟩
  · exact hapart x hx _ List.mem_cons_self
  · exact hapart x hx _ (List.mem_cons_of_mem _ (List.mem_map_of_mem hy))
  · exact (List.nodup_cons.mp (List.nodup_append.mp hl).2.1).1

/-- A memory that agrees on the cells of a chain has it as well. -/
theorem Tailed.congr (ht : Tailed m h l) (hl : l.Nodup)
    (hcells : ∀ x ∈ cells (.head h) l, m'.first x = m.first x ∧ m'.last x = m.last x) :
    Tailed m' h l where
  segment := ht.segment.congr (nodup_cells_head hl) (fun x hx _ => (hcells x hx).1)
    fun _ hx => (hcells _ (entry_mem_cells hx)).2
  last := by rw [(hcells _ List.mem_cons_self).2, ht.last]
  ends := by rw [(hcells _ (tip_mem_cells _ _)).1, ht.ends]

/-- The chain of one head is that of another in a memory whose other head leads to it. -/
theorem Tailed.moved {h' : η} (ht : Tailed m h l) (hl : l.Nodup)
    (hfirst : m'.first (.head h') = l.head?)
    (hback : m'.last (l.head?.elim (.head h') .entry) = .head h')
    (hlast : l ≠ [] → m'.last (.head h') = m.last (.head h))
    (hentries : ∀ e ∈ l, m'.first (.entry e) = m.first (.entry e))
    (hinner : ∀ e ∈ l, l.head? ≠ some e → m'.last (.entry e) = m.last (.entry e)) :
    Tailed m' h' l := by
  cases l with
  | nil => exact ⟨trivial, hback, hfirst⟩
  | cons y l =>
      have hcells : ∀ c ∈ cells (.entry y : Loc η ι) l, m'.first c = m.first c := by
        intro c hc
        obtain ⟨e, he, rfl⟩ := List.mem_map.mp (show c ∈ (y :: l).map .entry from hc)
        exact hentries e he
      refine ⟨⟨hfirst, hback, ?_⟩, ?_, ?_⟩
      · apply ht.segment.2.2.congr (nodup_cells_entry hl)
        · exact fun c hc _ => hcells c hc
        · intro e he
          apply hinner e (List.mem_cons_of_mem _ he)
          rw [List.head?_cons, Ne, Option.some.injEq]
          exact fun hye => (List.nodup_cons.mp hl).1 (hye ▸ he)
      · rw [hlast (by simp), ht.last]
        rfl
      · show m'.first (tip (.entry y) l) = none
        rw [hcells _ (tip_mem_cells _ _)]
        exact ht.ends

/-- The cell that points back to the entry behind `p`, or to the end of the chain. -/
def Memory.behind (m : Memory η ι) (h : η) (p : Loc η ι) : Loc η ι :=
  match m.first p with
  | some x => .entry x
  | none => .head h

/-- The cell that an edit behind `p` makes point elsewhere is of the chain. -/
theorem behind_mem_cells (ht : Tailed m h (l₁ ++ l₂)) :
    m.behind h (tip (.head h) l₁) ∈ cells (.head h) (l₁ ++ l₂) := by
  have hrest := (segment_append.mp ht.segment).2
  have hend := ht.ends
  rw [tip_append] at hend
  rw [Memory.behind, hrest.first_eq hend]
  cases l₂ with
  | nil => exact List.mem_cons_self
  | cons y l => exact entry_mem_cells (List.mem_append_right _ List.mem_cons_self)

theorem cells_subset (hl : ∀ e ∈ l₁, e ∈ l) {x : Loc η ι} (hx : x ∈ cells p l₁) :
    x ∈ cells p l := by
  rcases List.mem_cons.mp hx with rfl | hx
  · exact List.mem_cons_self
  · obtain ⟨e, he, rfl⟩ := List.mem_map.mp hx
    exact entry_mem_cells (hl e he)

/-! ## Several chains -/

/-- No entry is in two places. -/
structure Proper (q : η → List ι) : Prop where
  nodup : ∀ h, (q h).Nodup
  apart : ∀ h h' e, e ∈ q h → e ∈ q h' → h = h'

structure Chains (m : Memory η ι) (q : η → List ι) : Prop where
  proper : Proper q
  tailed : ∀ h, Tailed m h (q h)

theorem Proper.cells_apart {q : η → List ι} (hq : Proper q) {h h' : η} (hne : h' ≠ h)
    {x : Loc η ι} (hx : x ∈ cells (.head h') (q h')) : x ∉ cells (.head h) (q h) := by
  intro hmem
  cases x with
  | head k =>
      have hk : ∀ {h : η} {l : List ι}, .head k ∈ cells (.head h) l → k = h := by
        intro h l hk
        rcases List.mem_cons.mp hk with heq | hk
        · exact Loc.head.inj heq
        · obtain ⟨_, _, heq⟩ := List.mem_map.mp hk
          exact absurd heq (by simp)
      exact hne ((hk hx).symm.trans (hk hmem))
  | entry e =>
      have he : ∀ {h : η} {l : List ι}, .entry e ∈ cells (.head h) l → e ∈ l := by
        intro h l he
        rcases List.mem_cons.mp he with heq | he
        · exact absurd heq (by simp)
        · obtain ⟨x, hx, heq⟩ := List.mem_map.mp he
          rwa [← Loc.entry.inj heq]
      exact hne (hq.apart h' h e (he hx) (he hmem))

/-- An edit that leaves the cells of the other chains alone keeps those chains. -/
theorem Chains.edit {q q' : η → List ι} (hq : Chains m q) (hq' : Proper q') (edited : η → Prop)
    (hsame : ∀ h, ¬ edited h → q' h = q h) (htailed : ∀ h, edited h → Tailed m' h (q' h))
    (hcells : ∀ x, (∀ h, edited h → x ∉ cells (.head h) (q h) ∧ x ∉ cells (.head h) (q' h)) →
      m'.first x = m.first x ∧ m'.last x = m.last x) : Chains m' q' where
  proper := hq'
  tailed := by
    intro h'
    by_cases hedit : edited h'
    · exact htailed h' hedit
    · have hsame' := hsame h' hedit
      rw [hsame']
      apply (hq.tailed h').congr (hq.proper.nodup h')
      intro x hx
      apply hcells
      intro h hh
      have hne : h' ≠ h := fun heq => hedit (heq ▸ hh)
      refine ⟨hq.proper.cells_apart hne hx, hq'.cells_apart hne ?_⟩
      rwa [hsame']

/-- One list is replaced by another with entries of its own or new ones. -/
theorem Proper.update [DecidableEq η] {q : η → List ι} (hq : Proper q) {new : List ι}
    (hnd : new.Nodup) (hnew : ∀ e ∈ new, e ∈ q h ∨ ∀ h', e ∉ q h') :
    Proper (Function.update q h new) where
  nodup := by
    intro h'
    by_cases hne : h' = h
    · rwa [hne, Function.update_self]
    · rw [Function.update_of_ne hne]
      exact hq.nodup h'
  apart := by
    have hout : ∀ h', h' ≠ h → ∀ e ∈ new, e ∉ q h' := by
      intro h' hne e he he'
      rcases hnew e he with hold | hfree
      · exact hne (hq.apart h' h e he' hold)
      · exact hfree h' he'
    intro h₁ h₂ e he₁ he₂
    by_cases hne₁ : h₁ = h
    · by_cases hne₂ : h₂ = h
      · rw [hne₁, hne₂]
      · rw [hne₁, Function.update_self] at he₁
        rw [Function.update_of_ne hne₂] at he₂
        exact absurd he₂ (hout h₂ hne₂ e he₁)
    · rw [Function.update_of_ne hne₁] at he₁
      by_cases hne₂ : h₂ = h
      · rw [hne₂, Function.update_self] at he₂
        exact absurd he₁ (hout h₁ hne₁ e he₂)
      · rw [Function.update_of_ne hne₂] at he₂
        exact hq.apart h₁ h₂ e he₁ he₂

end

/-! ## Edits -/

variable {η ι : Type} [DecidableEq η] [DecidableEq ι]

namespace Memory

def setFirst (m : Memory η ι) (p : Loc η ι) (e : Option ι) : Memory η ι :=
  { m with first := Function.update m.first p e }

def setLast (m : Memory η ι) (p q : Loc η ι) : Memory η ι :=
  { m with last := Function.update m.last p q }

section

variable (m : Memory η ι) {p q r : Loc η ι} (e : Option ι)

@[simp] theorem first_setFirst_self : (m.setFirst p e).first p = e := Function.update_self _ _ _

theorem first_setFirst_of_ne (h : q ≠ p) : (m.setFirst p e).first q = m.first q :=
  Function.update_of_ne h _ _

@[simp] theorem last_setFirst : (m.setFirst p e).last = m.last := rfl

@[simp] theorem last_setLast_self : (m.setLast p r).last p = r := Function.update_self _ _ _

theorem last_setLast_of_ne (h : q ≠ p) : (m.setLast p r).last q = m.last q :=
  Function.update_of_ne h _ _

@[simp] theorem first_setLast : (m.setLast p r).first = m.first := rfl

end

/-- The entry `e` is linked in behind the cell `p` of the chain of `h`. -/
def link (m : Memory η ι) (h : η) (p : Loc η ι) (e : ι) : Memory η ι :=
  (((m.setFirst (.entry e) (m.first p)).setLast (m.behind h p) (.entry e)).setFirst p
    (some e)).setLast (.entry e) p

/-- The entry `e` behind the cell `p` is taken out of the chain of `h`. -/
def unlink (m : Memory η ι) (h : η) (p : Loc η ι) (e : ι) : Memory η ι :=
  (m.setLast (m.behind h (.entry e)) p).setFirst p (m.first (.entry e))

end Memory

variable {m : Memory η ι} {h : η} {p q : Loc η ι} {e : ι} {l l₁ l₂ : List ι}

theorem link_first_of_ne (hp : q ≠ p) (he : q ≠ .entry e) :
    (m.link h p e).first q = m.first q := by
  rw [Memory.link, Memory.first_setLast, Memory.first_setFirst_of_ne _ _ hp,
    Memory.first_setLast, Memory.first_setFirst_of_ne _ _ he]

theorem link_first_entry (hp : p ≠ .entry e) : (m.link h p e).first (.entry e) = m.first p := by
  rw [Memory.link, Memory.first_setLast, Memory.first_setFirst_of_ne _ _ hp.symm,
    Memory.first_setLast, Memory.first_setFirst_self]

theorem link_first_self : (m.link h p e).first p = some e := by
  rw [Memory.link, Memory.first_setLast, Memory.first_setFirst_self]

theorem link_last_entry : (m.link h p e).last (.entry e) = p := by
  rw [Memory.link, Memory.last_setLast_self]

theorem link_last_behind (hb : m.behind h p = q) (he : q ≠ .entry e) :
    (m.link h p e).last q = .entry e := by
  rw [Memory.link, Memory.last_setLast_of_ne _ he, Memory.last_setFirst, hb,
    Memory.last_setLast_self]

theorem link_last_of_ne (he : q ≠ .entry e) (hb : q ≠ m.behind h p) :
    (m.link h p e).last q = m.last q := by
  rw [Memory.link, Memory.last_setLast_of_ne _ he, Memory.last_setFirst,
    Memory.last_setLast_of_ne _ hb, Memory.last_setFirst]

theorem unlink_first_self : (m.unlink h p e).first p = m.first (.entry e) := by
  rw [Memory.unlink, Memory.first_setFirst_self]

theorem unlink_first_of_ne (hp : q ≠ p) : (m.unlink h p e).first q = m.first q := by
  rw [Memory.unlink, Memory.first_setFirst_of_ne _ _ hp, Memory.first_setLast]

theorem unlink_last_behind (hb : m.behind h (.entry e) = q) : (m.unlink h p e).last q = p := by
  rw [Memory.unlink, Memory.last_setFirst, hb, Memory.last_setLast_self]

theorem unlink_last_of_ne (hb : q ≠ m.behind h (.entry e)) :
    (m.unlink h p e).last q = m.last q := by
  rw [Memory.unlink, Memory.last_setFirst, Memory.last_setLast_of_ne _ hb]

theorem Tailed.link (ht : Tailed m h (l₁ ++ l₂)) (hl : (l₁ ++ e :: l₂).Nodup) :
    Tailed (m.link h (tip (.head h) l₁) e) h (l₁ ++ e :: l₂) := by
  obtain ⟨hapart, hnot⟩ := @apart_of_nodup η ι h e l₁ l₂ hl
  obtain ⟨hseg, hrest⟩ := segment_append.mp ht.segment
  have hlast := ht.last
  have hend := ht.ends
  rw [tip_append] at hlast hend
  have hp : tip (.head h) l₁ ≠ .entry e := (hapart _ (tip_mem_cells _ _)).1
  have hfirst : m.first (tip (.head h) l₁) = l₂.head? := hrest.first_eq hend
  -- in front of the entry only the last cell changes
  have hfront : ∀ {b : Loc η ι}, m.behind h (tip (.head h) l₁) = b → (∀ x ∈ l₁, .entry x ≠ b) →
      Segment (m.link h (tip (.head h) l₁) e) (.head h) l₁ := by
    intro b hb hout
    apply hseg.congr (nodup_cells_head (List.nodup_append.mp hl).1)
    · exact fun x hx hne => link_first_of_ne hne (hapart x hx).1
    · intro x hx
      exact link_last_of_ne (hapart _ (entry_mem_cells hx)).1 (hb ▸ hout x hx)
  cases l₂ with
  | nil =>
      have hb : m.behind h (tip (.head h) l₁) = .head h := by
        rw [Memory.behind, hfirst]
        rfl
      constructor
      · refine segment_append.mpr ⟨hfront hb fun x _ => by simp, ?_⟩
        exact ⟨link_first_self, link_last_entry, trivial⟩
      · rw [link_last_behind hb (by simp), tip_append]
        rfl
      · rw [tip_append]
        show (m.link h _ e).first (.entry e) = none
        rw [link_first_entry hp, hfirst]
        rfl
  | cons y l₃ =>
      have hb : m.behind h (tip (.head h) l₁) = .entry y := by
        rw [Memory.behind, hfirst]
        rfl
      have hye : (.entry y : Loc η ι) ≠ .entry e := fun hy =>
        hnot (Loc.entry.inj hy ▸ List.mem_cons_self)
      have hy : (y :: l₃).Nodup := (List.nodup_cons.mp (List.nodup_append.mp hl).2.1).2
      -- the cells behind the entry, and where they are not
      have hback : ∀ x ∈ cells (.entry y) l₃, x ≠ tip (.head h) l₁ ∧ x ≠ .entry e := by
        intro x hx
        obtain ⟨z, hz, rfl⟩ := List.mem_map.mp (show x ∈ (y :: l₃).map .entry from hx)
        refine ⟨((hapart _ (tip_mem_cells _ _)).2 z hz).symm, ?_⟩
        exact fun hze => hnot (Loc.entry.inj hze ▸ hz)
      constructor
      · refine segment_append.mpr ⟨hfront hb fun x hx => ?_, link_first_self, link_last_entry, ?_⟩
        · exact (hapart _ (entry_mem_cells hx)).2 y List.mem_cons_self
        · refine ⟨?_, ?_, ?_⟩
          · rw [link_first_entry hp, hfirst]
            rfl
          · exact link_last_behind hb hye
          · apply hrest.2.2.congr (nodup_cells_entry hy)
            · exact fun x hx _ => link_first_of_ne (hback x hx).1 (hback x hx).2
            · intro x hx
              apply link_last_of_ne (hback _ (entry_mem_cells hx)).2
              rw [hb]
              exact fun hxy => (List.nodup_cons.mp hy).1 (Loc.entry.inj hxy ▸ hx)
      · rw [link_last_of_ne (by simp) (by simp [hb]), hlast, tip_append]
        rfl
      · obtain ⟨hp, he⟩ := hback _ (tip_mem_cells _ _)
        rw [tip_append]
        show (m.link h _ e).first (tip (.entry y) l₃) = none
        rw [link_first_of_ne hp he]
        exact hend

theorem Tailed.unlink (ht : Tailed m h (l₁ ++ e :: l₂)) (hl : (l₁ ++ e :: l₂).Nodup) :
    Tailed (m.unlink h (tip (.head h) l₁) e) h (l₁ ++ l₂) := by
  obtain ⟨hapart, hnot⟩ := @apart_of_nodup η ι h e l₁ l₂ hl
  obtain ⟨hseg, hbefore, hself, hrest⟩ := segment_append.mp ht.segment
  have hlast := ht.last
  have hend := ht.ends
  rw [tip_append] at hlast hend
  have hfirst : m.first (.entry e) = l₂.head? := hrest.first_eq hend
  have hfront : ∀ {b : Loc η ι}, m.behind h (.entry e) = b → (∀ x ∈ l₁, .entry x ≠ b) →
      Segment (m.unlink h (tip (.head h) l₁) e) (.head h) l₁ := by
    intro b hb hout
    apply hseg.congr (nodup_cells_head (List.nodup_append.mp hl).1)
    · exact fun x _ hne => unlink_first_of_ne hne
    · exact fun x hx => unlink_last_of_ne (hb ▸ hout x hx)
  cases l₂ with
  | nil =>
      have hb : m.behind h (.entry e) = .head h := by
        rw [Memory.behind, hfirst]
        rfl
      rw [List.append_nil]
      constructor
      · exact hfront hb fun x _ => by simp
      · exact unlink_last_behind hb
      · rw [unlink_first_self, hfirst]
        rfl
  | cons y l₃ =>
      have hb : m.behind h (.entry e) = .entry y := by
        rw [Memory.behind, hfirst]
        rfl
      have hy : (y :: l₃).Nodup := (List.nodup_cons.mp (List.nodup_append.mp hl).2.1).2
      have hback : ∀ x ∈ cells (.entry y) l₃, x ≠ tip (.head h) l₁ := by
        intro x hx
        obtain ⟨z, hz, rfl⟩ := List.mem_map.mp (show x ∈ (y :: l₃).map .entry from hx)
        exact ((hapart _ (tip_mem_cells _ _)).2 z hz).symm
      constructor
      · refine segment_append.mpr ⟨hfront hb fun x hx => ?_, ?_, ?_, ?_⟩
        · exact (hapart _ (entry_mem_cells hx)).2 y List.mem_cons_self
        · rw [unlink_first_self, hfirst]
          rfl
        · exact unlink_last_behind hb
        · apply hrest.2.2.congr (nodup_cells_entry hy)
          · exact fun x hx _ => unlink_first_of_ne (hback x hx)
          · intro x hx
            apply unlink_last_of_ne
            rw [hb]
            exact fun hxy => (List.nodup_cons.mp hy).1 (Loc.entry.inj hxy ▸ hx)
      · rw [unlink_last_of_ne (by simp [hb]), hlast, tip_append]
        rfl
      · rw [tip_append]
        show (m.unlink h _ e).first (tip (.entry y) l₃) = none
        rw [unlink_first_of_ne (hback _ (tip_mem_cells _ _))]
        exact hend

/-! ## Edits of one of several chains -/

namespace Chains

variable {q : η → List ι}

theorem link (hq : Chains m q) (hl : q h = l₁ ++ l₂) (he : ∀ h', e ∉ q h') :
    Chains (m.link h (tip (.head h) l₁) e) (Function.update q h (l₁ ++ e :: l₂)) := by
  have ht := hq.tailed h
  have hnd : (l₁ ++ e :: l₂).Nodup := by
    have hold := hq.proper.nodup h
    have hout := he h
    rw [hl] at hold hout
    rw [List.nodup_middle, List.nodup_cons]
    exact ⟨hout, hold⟩
  rw [hl] at ht
  refine hq.edit ?_ (· = h) ?_ ?_ ?_
  · apply hq.proper.update hnd
    intro x hx
    rcases List.mem_append.mp hx with hx | hx
    · exact Or.inl (hl ▸ List.mem_append_left _ hx)
    · rcases List.mem_cons.mp hx with rfl | hx
      · exact Or.inr he
      · exact Or.inl (hl ▸ List.mem_append_right _ hx)
  · exact fun h' hne => Function.update_of_ne hne _ _
  · rintro _ rfl
    rw [Function.update_self]
    exact ht.link hnd
  · intro x hx
    obtain ⟨hold, hnew⟩ := hx h rfl
    rw [Function.update_self] at hnew
    rw [hl] at hold
    have hxe : x ≠ .entry e := by
      rintro rfl
      exact hnew (entry_mem_cells (List.mem_append_right _ List.mem_cons_self))
    constructor
    · apply link_first_of_ne _ hxe
      rintro rfl
      exact hold (cells_subset (fun _ hy => List.mem_append_left _ hy) (tip_mem_cells _ _))
    · apply link_last_of_ne hxe
      rintro rfl
      exact hold (behind_mem_cells ht)

theorem unlink (hq : Chains m q) (hl : q h = l₁ ++ e :: l₂) :
    Chains (m.unlink h (tip (.head h) l₁) e) (Function.update q h (l₁ ++ l₂)) := by
  have ht := hq.tailed h
  have hnd := hq.proper.nodup h
  rw [hl] at ht hnd
  refine hq.edit ?_ (· = h) ?_ ?_ ?_
  · apply hq.proper.update
    · exact (List.nodup_cons.mp (List.nodup_middle.mp hnd)).2
    · intro x hx
      left
      rw [hl]
      rcases List.mem_append.mp hx with hx | hx
      · exact List.mem_append_left _ hx
      · exact List.mem_append_right _ (List.mem_cons_of_mem _ hx)
  · exact fun h' hne => Function.update_of_ne hne _ _
  · rintro _ rfl
    rw [Function.update_self]
    exact ht.unlink hnd
  · intro x hx
    have hold := (hx h rfl).1
    rw [hl] at hold
    constructor
    · apply unlink_first_of_ne
      rintro rfl
      exact hold (cells_subset (fun _ hy => List.mem_append_left _ hy) (tip_mem_cells _ _))
    · apply unlink_last_of_ne
      rintro rfl
      have hsplit : l₁ ++ e :: l₂ = (l₁ ++ [e]) ++ l₂ := by simp
      rw [hsplit] at ht hold
      have hmem := behind_mem_cells ht
      rw [tip_append] at hmem
      exact hold hmem

end Chains

end Chain
