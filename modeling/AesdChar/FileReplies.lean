import AesdChar.DataFile

/-!
# Replies from the data file

What `file_lock` is for: from the seek to the end of the reply nobody else touches the file or its
offset, so a client is sent the file as its own packet has left it.  And what becomes of the server
when a send fails, since `process_packet` then returns with the lock.
-/

namespace AesdChar

namespace FileSystem

section

variable {ι : Type} {s : FileSystem ι}

/-- The section is that of a packet, which the file ends with. -/
def EndsWithPacket (s : FileSystem ι) : Prop :=
  ∃ buff, s.sections.getLast? = some (.packet buff) ∧ buff <:+ s.file

/-- What holds before each statement of a section, in any run. -/
def InPlace (s : FileSystem ι) : FilePc → Prop
  | .seekEnd record => s.sections.getLast? = some record ∧ ∃ buff, record = .packet buff
  | .write (.packet buff) =>
      s.sections.getLast? = some (.packet buff) ∧ s.offset = s.file.length
  | .rewind => s.EndsWithPacket
  | .reply reply => s.EndsWithPacket ∧ reply.sent = s.file.take s.offset
  | _ => True

/-- Whoever is in a section holds the lock; the lock may also be left with a call that returned. -/
structure Alone (s : FileSystem ι) : Prop where
  mutex : Mutex.Excludes s.holder fun t => (s.pc t).inSection
  placed : ∀ t, s.InPlace (s.pc t)

theorem inPlace_outside {pc : FilePc} (h : pc.inSection = false) : s.InPlace pc := by
  cases pc with
  | lock record => trivial
  | returned ret sent => trivial
  | _ => exact Bool.noConfusion h

theorem start_alone (initial : List UInt8) : Alone (start initial : FileSystem ι) where
  mutex := fun _ h => Bool.noConfusion h
  placed := fun _ => trivial

theorem take_piece (s : FileSystem ι) :
    s.file.take s.offset ++ s.piece = s.file.take (s.offset + s.piece.length) := by
  rw [piece, List.length_take, List.take_add]
  congr 1
  rw [← List.take_take, List.take_length]

variable [DecidableEq ι] {t : ι}

/-- A thread that holds the lock, or finds it free, moves on. -/
theorem Alone.moves (h : Alone s) (hown : s.holder = none ∨ (s.pc t).inSection = true)
    {s' : FileSystem ι} (hpc' : s'.pc = s.pc) {pc : FilePc}
    (hholder : pc.inSection = true → s'.holder = some t) (hplaced : s'.InPlace pc) :
    Alone (s'.goto t pc) := by
  constructor
  · apply h.mutex.moves hown
    · rwa [goto_pc_self]
    · intro u hu
      rw [goto_pc_of_ne pc hu, hpc']
  · intro u
    by_cases hu : u = t
    · rw [hu, goto_pc_self]
      exact hplaced
    · -- the others are outside, where nothing is said of the file
      rw [goto_pc_of_ne pc hu, hpc']
      apply inPlace_outside
      rw [← Bool.not_eq_true]
      intro hin
      rcases hown with hfree | hmine
      · exact Option.some_ne_none u ((h.mutex u hin).symm.trans hfree)
      · exact hu (h.mutex.alone hmine hin)

theorem Alone.call (h : Alone s) (record : Record) : Alone (s.goto t (.lock record)) := by
  constructor
  · apply h.mutex.moves_out
    · rw [goto_pc_self]
      rfl
    · intro u hu
      rw [goto_pc_of_ne _ hu]
  · intro u
    by_cases hu : u = t
    · rw [hu, goto_pc_self]
      trivial
    · rw [goto_pc_of_ne _ hu]
      exact h.placed u

theorem Alone.lock (h : Alone s) {record : Record} (hpc : s.pc t = .lock record)
    (conn : Int → Int) : Alone (s.next t conn) := by
  by_cases hfree : s.holder = none
  · rw [next_lock conn hpc hfree]
    apply h.moves (Or.inl hfree)
    · rfl
    · exact fun _ => rfl
    · cases record with
      | packet buff => exact ⟨List.getLast?_concat, buff, rfl⟩
      | stamp tm => trivial
  · rw [next_wait conn hpc hfree]
    exact h

theorem Alone.write (h : Alone s) {record : Record} (hpc : s.pc t = .write record)
    (conn : Int → Int) : Alone (s.next t conn) := by
  have hin : (s.pc t).inSection = true := by
    rw [hpc]
    rfl
  have hplaced := h.placed t
  rw [hpc] at hplaced
  rw [next_write conn hpc]
  cases record with
  | stamp tm =>
      apply h.moves (Or.inr hin)
      · rfl
      · exact fun _ => h.mutex t hin
      · trivial
  | packet buff =>
      obtain ⟨hlast, hend⟩ := hplaced
      apply h.moves (Or.inr hin)
      · rfl
      · exact fun _ => h.mutex t hin
      · refine ⟨buff, hlast, ?_⟩
        show buff <:+ fileWrite s.file s.offset buff
        rw [hend, fileWrite_end]
        exact List.suffix_append _ _

/-- A round of the reply loop: what has been sent is the file up to the offset. -/
theorem Alone.reply (h : Alone s) {reply : Reply} (hpc : s.pc t = .reply reply)
    (conn : Int → Int) : Alone (s.next t conn) := by
  have hin : (s.pc t).inSection = true := by
    rw [hpc]
    rfl
  have hplaced := h.placed t
  rw [hpc] at hplaced
  obtain ⟨hends, hsent⟩ := hplaced
  by_cases hend : s.piece = []
  · rw [next_reply_end conn hpc hend]
    apply h.moves (Or.inr hin)
    · rfl
    · exact fun _ => h.mutex t hin
    · trivial
  · by_cases hwrite : conn s.piece.length = s.piece.length
    · rw [next_reply conn hpc, replyRound_next s.int32_piece (length_piece_ne_zero hend) _ hwrite]
      apply h.moves (Or.inr hin)
      · rfl
      · exact fun _ => h.mutex t hin
      · refine ⟨hends, ?_⟩
        show reply.sent ++ (s.piece ++ _).take (s.piece.length : Int).toNat =
          s.file.take (s.offset + s.piece.length)
        rw [Int.toNat_natCast, List.take_left, hsent, s.take_piece]
    · -- the early return: the lock stays with a thread that is outside
      obtain ⟨sent, hnext⟩ := next_reply_short hpc hend hwrite
      rw [hnext]
      apply h.moves (Or.inr hin)
      · rfl
      · exact fun hout => Bool.noConfusion hout
      · trivial

theorem Alone.step (h : Alone s) (turn : FileTurn ι) : Alone (s.step turn) := by
  cases turn with
  | call t record =>
      rw [FileSystem.step]
      split
      · exact h.call record
      · exact h
  | next t conn =>
      rw [FileSystem.step]
      have hplaced := h.placed t
      have hmutex : (s.pc t).inSection = true → s.holder = some t := h.mutex t
      cases hpc : s.pc t with
      | lock record => exact h.lock hpc conn
      | write record => exact h.write hpc conn
      | reply reply => exact h.reply hpc conn
      | seekEnd record =>
          rw [hpc] at hplaced hmutex
          obtain ⟨hlast, buff, rfl⟩ := hplaced
          rw [next_seekEnd conn hpc]
          apply h.moves (Or.inr (by rw [hpc]; rfl))
          · rfl
          · exact fun _ => hmutex rfl
          · exact ⟨hlast, rfl⟩
      | rewind =>
          rw [hpc] at hplaced hmutex
          rw [next_rewind conn hpc]
          apply h.moves (Or.inr (by rw [hpc]; rfl))
          · rfl
          · exact fun _ => hmutex rfl
          · exact ⟨hplaced, List.take_zero.symm⟩
      | unlock sent =>
          rw [next_unlock conn hpc]
          apply h.moves (Or.inr (by rw [hpc]; rfl))
          · rfl
          · exact fun hout => Bool.noConfusion hout
          · trivial
      | returned ret sent =>
          rw [next, hpc]
          exact h

theorem alone_run (initial : List UInt8) (turns : List (FileTurn ι)) :
    Alone (turns.foldl step (start initial)) :=
  Runs.invariant Alone (fun _ turn h => h.step turn) (start_alone initial) turns

/-! ## Whose packet it is -/

theorem next_reply_cases {reply : Reply} (hpc : s.pc t = .reply reply) (conn : Int → Int) :
    s.next t conn = { s with offset := s.offset + s.piece.length } ∨
      ∃ pc, s.next t conn = { s with offset := s.offset + s.piece.length }.goto t pc := by
  rw [next_reply conn hpc]
  cases replyRound FilePc.unlock (.returned (-1)) s.piece.length s.piece conn reply with
  | next reply => exact Or.inr ⟨_, rfl⟩
  | done result => exact Or.inr ⟨_, rfl⟩
  | hang => exact Or.inl rfl

theorem next_others (s : FileSystem ι) (conn : Int → Int) {u : ι} (hu : u ≠ t) :
    (s.next t conn).pc u = s.pc u := by
  cases hpc : s.pc t with
  | lock record =>
      by_cases hfree : s.holder = none
      · rw [next_lock conn hpc hfree]
        exact goto_pc_of_ne _ hu
      · rw [next_wait conn hpc hfree]
  | seekEnd record =>
      rw [next_seekEnd conn hpc]
      exact goto_pc_of_ne _ hu
  | write record =>
      rw [next_write conn hpc]
      exact goto_pc_of_ne _ hu
  | rewind =>
      rw [next_rewind conn hpc]
      exact goto_pc_of_ne _ hu
  | reply reply =>
      rcases next_reply_cases hpc conn with hsame | ⟨pc, hgoes⟩
      · rw [hsame]
      · rw [hgoes]
        exact goto_pc_of_ne pc hu
  | unlock sent =>
      rw [next_unlock conn hpc]
      exact goto_pc_of_ne _ hu
  | returned ret sent => rw [next, hpc]

/-- Sections begin when the lock is free. -/
theorem next_sections (h : s.holder ≠ none) (conn : Int → Int) :
    (s.next t conn).sections = s.sections := by
  cases hpc : s.pc t with
  | lock record => rw [next_wait conn hpc h]
  | seekEnd record => rw [next_seekEnd conn hpc, goto_sections]
  | write record => rw [next_write conn hpc, goto_sections]
  | rewind => rw [next_rewind conn hpc, goto_sections]
  | reply reply =>
      rcases next_reply_cases hpc conn with hsame | ⟨pc, hgoes⟩
      · rw [hsame]
      · rw [hgoes, goto_sections]
  | unlock sent => rw [next_unlock conn hpc, goto_sections]
  | returned ret sent => rw [next, hpc]

/-- A turn, with the record of the last call that thread `t` made. -/
def noteCall (t : ι) (p : FileSystem ι × Option Record) (turn : FileTurn ι) :
    FileSystem ι × Option Record :=
  (p.1.step turn,
    match turn with
    | .call u record =>
        match p.1.pc u with
        | .returned _ _ => if u = t then some record else p.2
        | _ => p.2
    | .next _ _ => p.2)

def lastCall (initial : List UInt8) (turns : List (FileTurn ι)) (t : ι) : Option Record :=
  (turns.foldl (noteCall t) (start initial, none)).2

/-- What the call is for: the section of a reply is that of its own record. -/
def Serves (s : FileSystem ι) (record : Option Record) : FilePc → Prop
  | .lock record' => record = some record'
  | .seekEnd record' => record = some record'
  | .write record' => record = some record'
  | .rewind => record = s.sections.getLast?
  | .reply _ => record = s.sections.getLast?
  | _ => True

omit [DecidableEq ι] in
theorem Serves.keeps {record : Option Record} {pc : FilePc} (h : s.Serves record pc)
    {s' : FileSystem ι} (hsections : pc.inSection = true → s'.sections = s.sections) :
    s'.Serves record pc := by
  cases pc with
  | rewind => exact h.trans (congrArg _ (hsections rfl).symm)
  | reply reply => exact h.trans (congrArg _ (hsections rfl).symm)
  | _ => exact h

/-- The thread goes on with its call. -/
theorem Serves.next (halone : Alone s) {record : Option Record} (h : s.Serves record (s.pc t))
    (conn : Int → Int) : (s.next t conn).Serves record ((s.next t conn).pc t) := by
  have hplaced := halone.placed t
  cases hpc : s.pc t with
  | lock record' =>
      rw [hpc] at h
      by_cases hfree : s.holder = none
      · rw [next_lock conn hpc hfree, goto_pc_self]
        cases record' <;> exact h
      · rw [next_wait conn hpc hfree, hpc]
        exact h
  | seekEnd record' =>
      rw [hpc] at h
      rw [next_seekEnd conn hpc, goto_pc_self]
      exact h
  | write record' =>
      rw [hpc] at h hplaced
      rw [next_write conn hpc, goto_pc_self]
      cases record' with
      | packet buff => exact h.trans hplaced.1.symm
      | stamp tm => trivial
  | rewind =>
      rw [hpc] at h
      rw [next_rewind conn hpc, goto_pc_self]
      exact h
  | reply reply =>
      rw [hpc] at h
      by_cases hend : s.piece = []
      · rw [next_reply_end conn hpc hend, goto_pc_self]
        trivial
      · by_cases hwrite : conn s.piece.length = s.piece.length
        · obtain ⟨reply', hnext⟩ := next_reply_sent hpc hend hwrite
          rw [hnext, goto_pc_self]
          exact h
        · obtain ⟨sent, hnext⟩ := next_reply_short hpc hend hwrite
          rw [hnext, goto_pc_self]
          trivial
  | unlock sent =>
      rw [next_unlock conn hpc, goto_pc_self]
      trivial
  | returned ret sent =>
      have hstays : s.next t conn = s := by rw [FileSystem.next, hpc]
      rw [hstays, hpc]
      trivial

theorem Serves.noteCall {p : FileSystem ι × Option Record} (halone : Alone p.1)
    (h : p.1.Serves p.2 (p.1.pc t)) (turn : FileTurn ι) :
    (noteCall t p turn).1.Serves (noteCall t p turn).2 ((noteCall t p turn).1.pc t) := by
  obtain ⟨s, record⟩ := p
  cases turn with
  | call u record' =>
      cases hpc : s.pc u with
      | returned ret sent =>
          by_cases hu : u = t
          · subst hu
            simp only [FileSystem.noteCall, FileSystem.step, hpc, if_true, goto_pc_self]
            rfl
          · simp only [FileSystem.noteCall, FileSystem.step, hpc, if_neg hu,
              goto_pc_of_ne _ (Ne.symm hu)]
            exact h.keeps fun _ => rfl
      | _ =>
          -- a thread that is still in a call makes no other one
          simp only [FileSystem.noteCall, FileSystem.step, hpc]
          exact h
  | next u conn =>
      show (s.next u conn).Serves record ((s.next u conn).pc t)
      by_cases hu : u = t
      · subst hu
        exact h.next halone conn
      · rw [next_others s conn (Ne.symm hu)]
        apply h.keeps
        intro hin
        apply next_sections
        rw [halone.mutex t hin]
        exact Option.some_ne_none t

theorem noteCall_run (initial : List UInt8) (turns : List (FileTurn ι)) (t : ι) :
    (turns.foldl (noteCall t) (start initial, none)).1 = turns.foldl step (start initial) :=
  (List.foldl_hom Prod.fst fun _ _ => rfl).symm

/-- A thread that replies does so in the section of its own call. -/
theorem serves_run (initial : List UInt8) (turns : List (FileTurn ι)) (t : ι) :
    let s := turns.foldl step (start initial)
    s.Serves (lastCall initial turns t) (s.pc t) := by
  have hrun := Runs.invariant
    (fun p : FileSystem ι × Option Record => Alone p.1 ∧ p.1.Serves p.2 (p.1.pc t))
    (fun p turn h => ⟨h.1.step turn, h.2.noteCall h.1 turn⟩)
    (s := (start initial, none)) ⟨start_alone initial, trivial⟩ turns
  have hserves := hrun.2
  rwa [noteCall_run] at hserves

/-! ## The lock is kept -/

/-- The lock is with a thread whose call has returned. -/
structure Stuck (s : FileSystem ι) (t : ι) : Prop where
  held : s.holder = some t
  out : ∀ u, (s.pc u).inSection = false

/-- What has happened by then: nothing to the file, and who waited still waits. -/
structure NoMore (s s' : FileSystem ι) : Prop where
  file : s'.file = s.file
  sections : s'.sections = s.sections
  waiting : ∀ u record, s.pc u = .lock record → s'.pc u = .lock record

omit [DecidableEq ι] in
theorem NoMore.trans {s' s'' : FileSystem ι} (h : NoMore s s') (h' : NoMore s' s'') :
    NoMore s s'' where
  file := h'.file.trans h.file
  sections := h'.sections.trans h.sections
  waiting := fun u record hpc => h'.waiting u record (h.waiting u record hpc)

theorem Stuck.step (h : Stuck s t) (turn : FileTurn ι) :
    Stuck (s.step turn) t ∧ NoMore s (s.step turn) := by
  cases turn with
  | call u record =>
      rw [FileSystem.step]
      split
      · rename_i ret sent hret
        refine ⟨⟨h.held, ?_⟩, rfl, rfl, ?_⟩
        · intro v
          by_cases hv : v = u
          · rw [hv, goto_pc_self]
            rfl
          · rw [goto_pc_of_ne _ hv]
            exact h.out v
        · intro v record' hpc
          rw [goto_pc_of_ne]
          · exact hpc
          · rintro rfl
            rw [hret] at hpc
            exact absurd hpc (by simp)
      · exact ⟨h, rfl, rfl, fun _ _ hpc => hpc⟩
  | next u conn =>
      have hstays : s.next u conn = s := by
        cases hpc : s.pc u with
        | lock record =>
            apply next_wait conn hpc
            rw [h.held]
            exact Option.some_ne_none t
        | returned ret sent => rw [next, hpc]
        | _ =>
            have hin := h.out u
            rw [hpc] at hin
            exact Bool.noConfusion hin
      rw [FileSystem.step, hstays]
      exact ⟨h, rfl, rfl, fun _ _ hpc => hpc⟩

theorem Stuck.run (h : Stuck s t) (turns : List (FileTurn ι)) :
    Stuck (turns.foldl FileSystem.step s) t ∧ NoMore s (turns.foldl FileSystem.step s) := by
  induction turns generalizing s with
  | nil => exact ⟨h, rfl, rfl, fun _ _ hpc => hpc⟩
  | cons turn turns ih =>
      obtain ⟨hstuck, hfirst⟩ := h.step turn
      obtain ⟨hend, hrest⟩ := ih hstuck
      exact ⟨hend, hfirst.trans hrest⟩

/-- The call that a thread makes then stays at the lock. -/
theorem Stuck.waits (h : Stuck s t) {u : ι} (hret : s.Returned u) (record : Record)
    (turns : List (FileTurn ι)) :
    ((FileTurn.call u record :: turns).foldl FileSystem.step s).pc u = .lock record := by
  obtain ⟨ret, sent, hpc⟩ := hret
  obtain ⟨hstuck, -⟩ := h.step (.call u record)
  apply (hstuck.run turns).2.waiting
  rw [FileSystem.step, hpc]
  exact goto_pc_self _

/-- A send that falls short, in the middle of a reply. -/
theorem Alone.stuck (h : Alone s) {reply : Reply} (hpc : s.pc t = .reply reply)
    {conn : Int → Int} (hmore : s.piece ≠ []) (hshort : conn s.piece.length ≠ s.piece.length) :
    ∃ sent, (s.next t conn).pc t = .returned (-1) sent ∧ Stuck (s.next t conn) t ∧
      NoMore s (s.next t conn) := by
  have hin : (s.pc t).inSection = true := by
    rw [hpc]
    rfl
  obtain ⟨sent, hnext⟩ := next_reply_short hpc hmore hshort
  rw [hnext]
  refine ⟨sent, goto_pc_self _, ⟨h.mutex t hin, ?_⟩, rfl, rfl, ?_⟩
  · intro u
    by_cases hu : u = t
    · rw [hu, goto_pc_self]
      rfl
    · rw [goto_pc_of_ne _ hu, ← Bool.not_eq_true]
      exact fun hother => hu (h.mutex.alone hin hother)
  · intro u record hlock
    rw [goto_pc_of_ne]
    · exact hlock
    · rintro rfl
      rw [hpc] at hlock
      exact absurd hlock (by simp)

end

end FileSystem

/-- In any run, whatever sends and timestamps do, a reply that comes to its end is all of the file,
and the file then ends with the packet that the call is for.  While no send falls short and no
timestamp comes too early, that is everything written so far, in the order of the lock. -/
theorem replies_whole_file {ι : Type} [DecidableEq ι] (initial : List UInt8)
    (turns : List (FileTurn ι)) {t : ι} {reply : Reply}
    (hpc : (turns.foldl FileSystem.step (.start initial)).pc t = .reply reply)
    (hend : (turns.foldl FileSystem.step (.start initial)).piece = []) :
    let s := turns.foldl FileSystem.step (.start initial)
    reply.sent = s.file ∧
      (∃ buff, FileSystem.lastCall initial turns t = some (.packet buff) ∧
        s.sections.getLast? = some (.packet buff) ∧ buff <:+ reply.sent) ∧
      (Runs.Guarded FileSystem.step (fun s turn => turn.Harmless initial s) (.start initial) turns →
        reply.sent = initial ++ (s.sections.map Record.bytes).flatten) := by
  intro s
  have hplaced := (FileSystem.alone_run initial turns).placed t
  have hserves := FileSystem.serves_run initial turns t
  simp only [hpc] at hplaced hserves
  obtain ⟨⟨buff, hlast, hsuffix⟩, hsent⟩ := hplaced
  have hpast : s.file.length ≤ s.offset := by
    rw [FileSystem.piece, List.take_eq_nil_iff] at hend
    exact List.drop_eq_nil_iff.mp (hend.resolve_left (by decide))
  have hwhole : reply.sent = s.file := by
    rw [hsent]
    exact List.take_of_length_le hpast
  refine ⟨hwhole, ⟨buff, hserves.trans hlast, hlast, hwhole ▸ hsuffix⟩, ?_⟩
  intro hguarded
  have hinv := Runs.Guarded.invariant (FileSystem.FileInv initial)
    (fun _ _ hs hharmless => hs.step hharmless) (FileSystem.start_inv initial) hguarded
  rw [hwhole]
  exact hinv.file_at hpc rfl

def nexts (t : Bool) (n : Nat) : List (FileTurn Bool) := List.replicate n (.next t id)

/-- A call with a packet, as far as its reply. -/
def packetCall (t : Bool) (buff : List UInt8) : List (FileTurn Bool) :=
  .call t (.packet buff) :: nexts t 4

/-- The first client has been sent its packet, and the second one is being replied to. -/
def twoPackets : List (FileTurn Bool) :=
  packetCall false [97, 10] ++ nexts false 3 ++ packetCall true [98, 10] ++ nexts true 1

theorem second_reply_whole :
    let s := twoPackets.foldl FileSystem.step (.start [])
    ∃ reply, s.pc true = .reply reply ∧ reply.sent = [97, 10, 98, 10] ∧
      ∃ buff, FileSystem.lastCall [] twoPackets true = some (.packet buff) ∧
        s.sections.getLast? = some (.packet buff) ∧ buff <:+ reply.sent := by
  have hend : (twoPackets.foldl FileSystem.step (.start [])).piece = [] := by decide
  have hfile : (twoPackets.foldl FileSystem.step (.start [])).file = [97, 10, 98, 10] := by decide
  have h := @replies_whole_file Bool _ [] twoPackets true _ rfl hend
  exact ⟨_, rfl, h.1.trans hfile, h.2.1⟩

/-- Once a send falls short, the call of `process_packet` has returned -1 with the lock, and
whatever comes after it: nothing is written to the file any more, and every call of
`process_packet` and of `timer_thread` that waits for the lock, or is made, is still at the lock. -/
theorem short_send_stops_file {ι : Type} [DecidableEq ι] (initial : List UInt8)
    (turns : List (FileTurn ι)) {t : ι} {reply : Reply} {conn : Int → Int}
    (hpc : (turns.foldl FileSystem.step (.start initial)).pc t = .reply reply)
    (hshort : conn (turns.foldl FileSystem.step (.start initial)).piece.length ≠
      (turns.foldl FileSystem.step (.start initial)).piece.length)
    (hmore : (turns.foldl FileSystem.step (.start initial)).piece ≠ []) :
    let s := turns.foldl FileSystem.step (.start initial)
    let s₁ := s.step (.next t conn)
    (∃ sent, s₁.pc t = .returned (-1) sent) ∧
      ∀ later : List (FileTurn ι),
        let s' := later.foldl FileSystem.step s₁
        s'.holder = some t ∧ s'.file = s.file ∧ s'.sections = s.sections ∧
          (∀ u, (s'.pc u).inSection = false) ∧
          (∀ u record, s₁.pc u = .lock record → s'.pc u = .lock record) ∧
          ∀ u record, s'.Returned u → ∀ last : List (FileTurn ι),
            ((FileTurn.call u record :: last).foldl FileSystem.step s').pc u = .lock record := by
  intro s s₁
  obtain ⟨sent, hret, hstuck, hfirst⟩ :=
    (FileSystem.alone_run initial turns).stuck hpc hmore hshort
  refine ⟨⟨sent, hret⟩, fun later => ?_⟩
  obtain ⟨hend, hlater⟩ := hstuck.run later
  have hall := hfirst.trans hlater
  exact ⟨hend.held, hall.file, hall.sections, hend.out, hlater.waiting,
    fun u record hu last => hend.waits hu record last⟩

/-- The client is gone, and the next one is never served. -/
theorem next_client_waits :
    let s := (packetCall false [97, 10]).foldl FileSystem.step (.start [])
    let s' := s.step (.next false fun _ => -1)
    s'.holder = some false ∧ s'.Returned true ∧ ∀ last : List (FileTurn Bool),
      ((FileTurn.call true (.packet [98, 10]) :: last).foldl FileSystem.step s').pc true =
        .lock (.packet [98, 10]) := by
  have h := @short_send_stops_file Bool _ [] (packetCall false [97, 10]) false ⟨[], [], []⟩
    (fun _ => -1) rfl (by decide) (by decide)
  have hlater := h.2 []
  simp only [List.foldl_nil] at hlater
  obtain ⟨hheld, -, -, -, -, hwaits⟩ := hlater
  have hret : FileSystem.Returned (((packetCall false [97, 10]).foldl FileSystem.step
      (.start [])).step (.next false fun _ => -1)) true := by
    refine ⟨0, [], ?_⟩
    rw [FileSystem.step, FileSystem.next_others _ _ (by decide)]
    rfl
  exact ⟨hheld, hret, fun last => hwaits true _ hret last⟩

end AesdChar
