import AesdChar.Lib.Mutex
import AesdChar.Lib.Runs
import AesdChar.ReplyLoop

/-!
# The data file

The server built without `USE_AESD_CHAR_DEVICE`: packets and timestamps go to one file, through
one descriptor with one offset, under `file_lock`.  A turn lets one thread make one statement with
one access to what the threads share.
-/

namespace AesdChar

/-- What `localtime` gives. -/
structure Tm where
  tmSec : Nat
  tmMin : Nat
  tmHour : Nat
  tmMday : Nat
  tmMon : Nat
  tmYear : Nat

def twoDigits (n : Nat) : List UInt8 := [UInt8.ofNat (48 + n / 10 % 10), UInt8.ofNat (48 + n % 10)]

/-- `"timestamp:%y/%m/%d - %T\n"` -/
def timeStamp (tm : Tm) : List UInt8 :=
  [116, 105, 109, 101, 115, 116, 97, 109, 112, 58] ++
    twoDigits (tm.tmYear % 100) ++ 47 :: twoDigits (tm.tmMon + 1) ++ 47 :: twoDigits tm.tmMday ++
    [32, 45, 32] ++
    twoDigits tm.tmHour ++ 58 :: twoDigits tm.tmMin ++ 58 :: twoDigits tm.tmSec ++ [NEWLINE]

/-- What a call appends: a packet, or the timestamp of a firing of the timer. -/
inductive Record where
  | packet (buff : List UInt8)
  | stamp (tm : Tm)

def Record.bytes : Record → List UInt8
  | .packet buff => buff
  | .stamp tm => timeStamp tm

/-- The next statement of a thread. -/
inductive FilePc where
  | lock (record : Record)
  | seekEnd (record : Record)
  | write (record : Record)
  | rewind
  | reply (reply : Reply)
  | unlock (sent : List UInt8)
  | returned (ret : Int) (sent : List UInt8)

/-- What follows the lock: only a packet is preceded by a seek. -/
def Record.entry : Record → FilePc
  | .packet buff => .seekEnd (.packet buff)
  | .stamp tm => .write (.stamp tm)

/-- What follows the write. -/
def Record.wrote : Record → FilePc
  | .packet _ => .rewind
  | .stamp _ => .unlock []

/-- Of the sections up to a thread's own, those that have been written when it is there. -/
def FilePc.written (sections : List Record) : FilePc → List Record
  | .seekEnd _ => sections.dropLast
  | .write _ => sections.dropLast
  | _ => sections

/-- A `write` at the offset; a gap before it is filled with zeros. -/
def fileWrite (file : List UInt8) (offset : Nat) (bytes : List UInt8) : List UInt8 :=
  file.take offset ++ List.replicate (offset - file.length) 0 ++ bytes ++
    file.drop (offset + bytes.length)

section

variable {ι : Type} [DecidableEq ι]

structure FileSystem (ι : Type) where
  file : List UInt8
  offset : Nat
  -- who holds `file_lock`
  holder : Option ι
  pc : ι → FilePc
  -- what the sections of `file_lock` so far are for, in the order they were entered
  sections : List Record

inductive FileTurn (ι : Type) where
  -- `process_packet` or `timer_thread` is called
  | call (t : ι) (record : Record)
  -- the next statement; `conn n` is what a `write (connfd, .., n)` in it returns
  | next (t : ι) (conn : Int → Int)

namespace FileSystem

def goto (s : FileSystem ι) (t : ι) (pc : FilePc) : FileSystem ι :=
  { s with pc := Function.update s.pc t pc }

/-- What the next `read (fd, .., MAX_BUF_SIZE)` delivers. -/
def piece (s : FileSystem ι) : List UInt8 := (s.file.drop s.offset).take MAX_BUF_SIZE

/-- After a round of the reply loop, which gives the next statement when it leaves. -/
def replied (s : FileSystem ι) (t : ι) :
    Loop.Step Reply ((List UInt8 → FilePc) × Reply) → FileSystem ι
  | .next reply => s.goto t (.reply reply)
  | .done (pc, reply) => s.goto t (pc reply.sent)
  | .hang => s

/-- A thread that waits for the lock stays where it is.  The file takes all that is written to
it. -/
def next (s : FileSystem ι) (t : ι) (conn : Int → Int) : FileSystem ι :=
  match s.pc t with
  | .lock record =>
      if s.holder = none then
        { s with holder := some t, sections := s.sections ++ [record] }.goto t record.entry
      else s
  | .seekEnd record => { s with offset := s.file.length }.goto t (.write record)
  | .write record =>
      { s with
        file := fileWrite s.file s.offset record.bytes
        offset := s.offset + record.bytes.length }.goto t record.wrote
  | .rewind => { s with offset := 0 }.goto t (.reply ⟨[], [], []⟩)
  | .reply reply =>
      -- a send that falls short returns without the unlock
      { s with offset := s.offset + s.piece.length }.replied t
        (replyRound FilePc.unlock (.returned (-1)) s.piece.length s.piece conn reply)
  | .unlock sent => { s with holder := none }.goto t (.returned 0 sent)
  | .returned _ _ => s

def step (s : FileSystem ι) : FileTurn ι → FileSystem ι
  | .call t record =>
      match s.pc t with
      | .returned _ _ => s.goto t (.lock record)
      | _ => s
  | .next t conn => s.next t conn

/-- `main` has opened the file and called nobody. -/
def start (initial : List UInt8) : FileSystem ι where
  file := initial
  offset := 0
  holder := none
  pc := fun _ => .returned 0 []
  sections := []

/-- The sections whose write is done: all but one that has not come to it. -/
def written (s : FileSystem ι) : List Record :=
  match s.holder with
  | none => s.sections
  | some t => (s.pc t).written s.sections

def Returned (s : FileSystem ι) (t : ι) : Prop := ∃ ret sent, s.pc t = .returned ret sent

/-- The file is its initial content with whole records behind it, in the order of the sections,
and no call that has returned holds the lock. -/
structure AppendOnly (initial : List UInt8) (s : FileSystem ι) : Prop where
  file : s.file = initial ++ (s.written.map Record.bytes).flatten
  released : ∀ t, s.Returned t → s.holder ≠ some t

end FileSystem

/-- A packet has been in the file's lock. -/
def FileSystem.PacketServed (s : FileSystem ι) : Prop :=
  ∃ buff, Record.packet buff ∈ s.sections

/-- No send falls short, and a timestamp is written to a file that was empty or has had a packet
appended. -/
def FileTurn.Harmless (initial : List UInt8) (s : FileSystem ι) : FileTurn ι → Prop
  | .call _ _ => True
  | .next t conn =>
      (∀ reply, s.pc t = .reply reply → s.piece ≠ [] → conn s.piece.length = s.piece.length) ∧
      (∀ tm, s.pc t = .write (.stamp tm) → initial = [] ∨ s.PacketServed)

end

/-! ## The lock -/

/-- Between the lock and the unlock. -/
def FilePc.inSection : FilePc → Bool
  | .lock _ => false
  | .returned _ _ => false
  | _ => true

namespace FileSystem

section

variable {ι : Type}

/-- Where the offset is when a section begins: at the end of the file, or, before the first packet,
at the start of what the file held initially. -/
def Ready (initial : List UInt8) (s : FileSystem ι) : Prop :=
  ((initial = [] ∨ s.PacketServed) ∧ s.offset = s.file.length) ∨
    (¬ (initial = [] ∨ s.PacketServed) ∧ s.file = initial ∧ s.offset = 0)

/-- What holds before each statement of a section. -/
def Placed (initial : List UInt8) (s : FileSystem ι) : FilePc → Prop
  | .lock _ => False
  | .seekEnd record => s.sections.getLast? = some record ∧ ∃ buff, record = .packet buff
  | .write (.packet buff) =>
      s.sections.getLast? = some (.packet buff) ∧ s.offset = s.file.length
  | .write (.stamp tm) => s.sections.getLast? = some (.stamp tm) ∧ s.Ready initial
  | .rewind => s.PacketServed
  | .reply _ => s.PacketServed ∧ s.offset ≤ s.file.length
  | .unlock _ => s.Ready initial
  | .returned _ _ => False

structure FileInv (initial : List UInt8) (s : FileSystem ι) : Prop where
  mutex : Mutex.Guards s.holder fun t => (s.pc t).inSection
  file : s.file = initial ++ (s.written.map Record.bytes).flatten
  idle : s.holder = none → s.Ready initial
  placed : ∀ t, s.holder = some t → s.Placed initial (s.pc t)

end

section

variable {ι : Type} {initial : List UInt8} {s : FileSystem ι} {t : ι}

theorem written_of_free (h : s.holder = none) : s.written = s.sections := by
  rw [written, h]

theorem written_of_holder (h : s.holder = some t) : s.written = (s.pc t).written s.sections := by
  rw [written, h]

theorem length_piece_le (s : FileSystem ι) : s.piece.length ≤ MAX_BUF_SIZE := by
  rw [piece, List.length_take]
  exact Nat.min_le_left _ _

theorem int32_piece (s : FileSystem ι) : CInt.int32 s.piece.length = s.piece.length := by
  have := s.length_piece_le
  unfold MAX_BUF_SIZE at this
  exact CInt.int32_natCast _ (by omega)

theorem length_piece_ne_zero (h : s.piece ≠ []) : (s.piece.length : Int) ≠ 0 := by
  have := List.length_pos_of_ne_nil h
  omega

theorem packetServed_stamp {tm : Tm} {holder : Option ι} :
    PacketServed { s with holder := holder, sections := s.sections ++ [.stamp tm] } ↔
      s.PacketServed := by
  unfold PacketServed
  simp

theorem start_inv (initial : List UInt8) : FileInv initial (start initial : FileSystem ι) where
  mutex := Mutex.Guards.nobody
  file := (List.append_nil initial).symm
  idle := by
    intro _
    by_cases hempty : initial = []
    · exact Or.inl ⟨Or.inl hempty, by rw [hempty]; rfl⟩
    · apply Or.inr
      refine ⟨?_, rfl, rfl⟩
      rintro (h | ⟨buff, hmem⟩)
      · exact hempty h
      · exact absurd hmem List.not_mem_nil
  placed := fun _ h => absurd h (Option.some_ne_none _).symm

theorem FileInv.appendOnly (h : FileInv initial s) : AppendOnly initial s where
  file := h.file
  released := by
    rintro u ⟨ret, sent, hpc⟩ hheld
    exact h.mutex.outside (by rw [hpc]; rfl) hheld

section

variable {pc : FilePc}

theorem FileInv.holds_lock (h : FileInv initial s) (hpc : s.pc t = pc)
    (hin : pc.inSection = true) : s.holder = some t := by
  subst hpc
  exact (h.mutex t).mpr hin

theorem FileInv.placed_at (h : FileInv initial s) (hpc : s.pc t = pc)
    (hin : pc.inSection = true) : s.Placed initial pc := by
  have hplaced := h.placed t (h.holds_lock hpc hin)
  rwa [hpc] at hplaced

theorem FileInv.file_at (h : FileInv initial s) (hpc : s.pc t = pc) (hin : pc.inSection = true) :
    s.file = initial ++ ((pc.written s.sections).map Record.bytes).flatten := by
  have hfile := h.file
  rwa [written_of_holder (h.holds_lock hpc hin), hpc] at hfile

end

theorem fileWrite_end (file bytes : List UInt8) :
    fileWrite file file.length bytes = file ++ bytes := by
  rw [fileWrite, List.take_length, Nat.sub_self, List.replicate_zero, List.append_nil,
    List.drop_of_length_le (Nat.le_add_right _ _), List.append_nil]

theorem length_fileWrite_start (file bytes : List UInt8) :
    (fileWrite file 0 bytes).length = max file.length bytes.length := by
  rw [fileWrite, List.take_zero, Nat.zero_sub, List.replicate_zero, List.append_nil,
    List.nil_append, List.length_append, List.length_drop]
  omega

theorem timeStamp_ne_nil (tm : Tm) : timeStamp tm ≠ [] := List.cons_ne_nil _ _

/-- A record written at the end of the file. -/
theorem FileInv.append (h : FileInv initial s) {record : Record} (hpc : s.pc t = .write record)
    (hlast : s.sections.getLast? = some record) (hend : s.offset = s.file.length) :
    fileWrite s.file s.offset record.bytes =
      initial ++ (s.sections.map Record.bytes).flatten := by
  have hfile := h.file_at hpc rfl
  change s.file = initial ++ (s.sections.dropLast.map Record.bytes).flatten at hfile
  have hsplit : s.sections.dropLast ++ [record] = s.sections :=
    List.dropLast_append_getLast? record hlast
  rw [hend, fileWrite_end, ← hsplit, List.map_append, List.map_singleton, List.flatten_append,
    List.flatten_singleton, ← List.append_assoc, ← hfile]

variable [DecidableEq ι]

@[simp] theorem goto_file (pc : FilePc) : (s.goto t pc).file = s.file := rfl
@[simp] theorem goto_offset (pc : FilePc) : (s.goto t pc).offset = s.offset := rfl
@[simp] theorem goto_holder (pc : FilePc) : (s.goto t pc).holder = s.holder := rfl
@[simp] theorem goto_sections (pc : FilePc) : (s.goto t pc).sections = s.sections := rfl

@[simp] theorem goto_pc_self (pc : FilePc) : (s.goto t pc).pc t = pc := by
  show Function.update s.pc t pc t = pc
  rw [Function.update_self]

theorem goto_written (s : FileSystem ι) (h : s.holder = some t) (pc : FilePc) :
    (s.goto t pc).written = pc.written s.sections := by
  rw [@written_of_holder _ (s.goto t pc) t h, goto_pc_self]
  rfl

theorem goto_pc_of_ne (pc : FilePc) {u : ι} (h : u ≠ t) : (s.goto t pc).pc u = s.pc u := by
  show Function.update s.pc t pc u = s.pc u
  rw [Function.update_of_ne h]

/-- The lock still guards the sections after a move of `t`. -/
theorem FileInv.guards (h : FileInv initial s) {s' : FileSystem ι} (hpc' : s'.pc = s.pc)
    {pc : FilePc} (hmove : Mutex.Moves s.holder s'.holder t (s.pc t).inSection pc.inSection) :
    Mutex.Guards (s'.goto t pc).holder fun u => ((s'.goto t pc).pc u).inSection := by
  apply h.mutex.moves
  · rwa [goto_pc_self]
  · intro u hu
    rw [goto_pc_of_ne pc hu, hpc']

/-- A thread outside of its section moves there. -/
theorem FileInv.outside (h : FileInv initial s) (hout : (s.pc t).inSection = false) {pc : FilePc}
    (hout' : pc.inSection = false) : FileInv initial (s.goto t pc) := by
  have hne : s.holder ≠ some t := h.mutex.outside hout
  have hpc : ∀ u, s.holder = some u → (s.goto t pc).pc u = s.pc u := by
    intro u hu
    apply goto_pc_of_ne
    rintro rfl
    exact hne hu
  have hwritten : (s.goto t pc).written = s.written := by
    cases hh : s.holder with
    | none => rw [written_of_free hh, show (s.goto t pc).written = _ from written_of_free hh]; rfl
    | some u =>
        rw [written_of_holder hh, show (s.goto t pc).written = _ from written_of_holder hh,
          hpc u hh]
        rfl
  refine ⟨?_, ?_, ?_, ?_⟩
  · exact h.guards rfl (.kept rfl (by rw [hout, hout']))
  · rw [hwritten]
    exact h.file
  · exact h.idle
  · intro u hu
    rw [hpc u hu]
    exact h.placed u hu

/-- The thread that holds the lock, or takes it, goes on inside of its section. -/
theorem FileInv.inside (h : FileInv initial s) (hown : s.holder = none ∨ s.holder = some t)
    {s' : FileSystem ι} (hpc' : s'.pc = s.pc) (hholder : s'.holder = some t) {pc : FilePc}
    (hin : pc.inSection = true)
    (hfile : s'.file = initial ++ ((pc.written s'.sections).map Record.bytes).flatten)
    (hplaced : s'.Placed initial pc) : FileInv initial (s'.goto t pc) where
  mutex := by
    apply h.guards hpc'
    rcases hown with hnone | hsome
    · exact .taken hnone hholder hin
    · exact .kept (hholder.trans hsome.symm) (hin.trans ((h.mutex t).mp hsome).symm)
  file := by
    rw [written_of_holder (s := s'.goto t pc) hholder, goto_pc_self]
    exact hfile
  idle := by
    intro hfree
    rw [goto_holder, hholder] at hfree
    exact absurd hfree (Option.some_ne_none t)
  placed := by
    intro u hu
    rw [goto_holder, hholder] at hu
    obtain rfl := Option.some.inj hu
    rw [goto_pc_self]
    exact hplaced

/-- The thread that holds the lock moves on, having changed nothing but the file and the offset. -/
theorem FileInv.goesOn (h : FileInv initial s) (hheld : s.holder = some t) {file : List UInt8}
    {offset : Nat} {pc : FilePc} (hin : pc.inSection = true)
    (hfile : file = initial ++ ((pc.written s.sections).map Record.bytes).flatten)
    (hplaced : Placed initial { s with file := file, offset := offset } pc) :
    FileInv initial ({ s with file := file, offset := offset }.goto t pc) := by
  apply h.inside (Or.inr hheld)
  · rfl
  · exact hheld
  · exact hin
  · exact hfile
  · exact hplaced

theorem FileInv.release (h : FileInv initial s) {sent : List UInt8} (hpc : s.pc t = .unlock sent) :
    FileInv initial ({ s with holder := none }.goto t (.returned 0 sent)) := by
  have hheld := h.holds_lock hpc rfl
  refine ⟨?_, h.file_at hpc rfl, fun _ => h.placed_at hpc rfl, ?_⟩
  · apply h.guards
    · rfl
    · exact .released hheld rfl rfl
  · exact fun u hu => absurd hu (Option.some_ne_none u).symm

/-! ## Steps -/

section

variable (conn : Int → Int)

theorem next_lock {record : Record} (hpc : s.pc t = .lock record) (hfree : s.holder = none) :
    s.next t conn =
      { s with holder := some t, sections := s.sections ++ [record] }.goto t record.entry := by
  rw [next, hpc]
  exact if_pos hfree

theorem next_wait {record : Record} (hpc : s.pc t = .lock record) (hheld : s.holder ≠ none) :
    s.next t conn = s := by
  rw [next, hpc]
  exact if_neg hheld

theorem next_seekEnd {record : Record} (hpc : s.pc t = .seekEnd record) :
    s.next t conn = { s with offset := s.file.length }.goto t (.write record) := by
  rw [next, hpc]

theorem next_write {record : Record} (hpc : s.pc t = .write record) :
    s.next t conn =
      { s with
        file := fileWrite s.file s.offset record.bytes
        offset := s.offset + record.bytes.length }.goto t record.wrote := by
  rw [next, hpc]

theorem next_rewind (hpc : s.pc t = .rewind) :
    s.next t conn = { s with offset := 0 }.goto t (.reply ⟨[], [], []⟩) := by
  rw [next, hpc]

theorem next_unlock {sent : List UInt8} (hpc : s.pc t = .unlock sent) :
    s.next t conn = { s with holder := none }.goto t (.returned 0 sent) := by
  rw [next, hpc]

theorem next_reply {reply : Reply} (hpc : s.pc t = .reply reply) :
    s.next t conn = { s with offset := s.offset + s.piece.length }.replied t
      (replyRound FilePc.unlock (.returned (-1)) s.piece.length s.piece conn reply) := by
  rw [next, hpc]

theorem next_reply_end {reply : Reply} (hpc : s.pc t = .reply reply) (hend : s.piece = []) :
    s.next t conn = s.goto t (.unlock reply.sent) := by
  have hzero : CInt.int32 s.piece.length = 0 := by
    rw [s.int32_piece, hend]
    rfl
  rw [next_reply conn hpc, replyRound_zero hzero, hend]
  rfl

variable {conn}

theorem next_reply_sent {reply : Reply} (hpc : s.pc t = .reply reply) (hmore : s.piece ≠ [])
    (hwrite : conn s.piece.length = s.piece.length) :
    ∃ reply', s.next t conn =
      { s with offset := s.offset + s.piece.length }.goto t (.reply reply') := by
  rw [next_reply conn hpc,
    replyRound_next s.int32_piece (length_piece_ne_zero hmore) _ hwrite]
  exact ⟨_, rfl⟩

theorem next_reply_short {reply : Reply} (hpc : s.pc t = .reply reply) (hmore : s.piece ≠ [])
    (hshort : conn s.piece.length ≠ s.piece.length) :
    ∃ sent, s.next t conn =
      { s with offset := s.offset + s.piece.length }.goto t (.returned (-1) sent) := by
  rw [next_reply conn hpc,
    replyRound_short s.int32_piece (length_piece_ne_zero hmore) _ hshort]
  exact ⟨_, rfl⟩

end

theorem FileInv.lock (h : FileInv initial s) {record : Record} (hpc : s.pc t = .lock record)
    (conn : Int → Int) : FileInv initial (s.next t conn) := by
  by_cases hfree : s.holder = none
  · have hready := h.idle hfree
    have hfile := h.file
    rw [written_of_free hfree] at hfile
    have hlast : (s.sections ++ [record]).getLast? = some record := List.getLast?_concat
    have hkept : s.file =
        initial ++ ((s.sections ++ [record]).dropLast.map Record.bytes).flatten := by
      rw [List.dropLast_concat, hfile]
    rw [next_lock conn hpc hfree]
    cases record with
    | packet buff =>
        apply h.inside (Or.inl hfree)
        · rfl
        · rfl
        · rfl
        · exact hkept
        · exact ⟨hlast, buff, rfl⟩
    | stamp tm =>
        apply h.inside (Or.inl hfree)
        · rfl
        · rfl
        · rfl
        · exact hkept
        · refine ⟨hlast, ?_⟩
          unfold Ready at hready ⊢
          rw [packetServed_stamp]
          exact hready
  · rw [next_wait conn hpc hfree]
    exact h

theorem FileInv.seekEnd (h : FileInv initial s) {record : Record} (hpc : s.pc t = .seekEnd record)
    (conn : Int → Int) : FileInv initial (s.next t conn) := by
  have hfile := h.file_at hpc rfl
  obtain ⟨hlast, buff, rfl⟩ := h.placed_at hpc rfl
  rw [next_seekEnd conn hpc]
  exact h.goesOn (h.holds_lock hpc rfl) rfl hfile ⟨hlast, rfl⟩

theorem FileInv.write (h : FileInv initial s) {record : Record} (hpc : s.pc t = .write record)
    {conn : Int → Int} (hharmless : (FileTurn.next t conn).Harmless initial s) :
    FileInv initial (s.next t conn) := by
  have hheld := h.holds_lock hpc rfl
  have hplaced := h.placed_at hpc rfl
  rw [next_write conn hpc]
  cases record with
  | packet buff =>
      obtain ⟨hlast, hend⟩ := hplaced
      show FileInv initial (FileSystem.goto _ t .rewind)
      exact h.goesOn hheld rfl (h.append hpc hlast hend) ⟨buff, List.mem_of_getLast? hlast⟩
  | stamp tm =>
      obtain ⟨hlast, hready⟩ := hplaced
      have hsafe := hharmless.2 tm hpc
      have hend : s.offset = s.file.length := by
        rcases hready with hready | hready
        · exact hready.2
        · exact absurd hsafe hready.1
      show FileInv initial (FileSystem.goto _ t (.unlock []))
      apply h.goesOn hheld rfl (h.append hpc hlast hend)
      apply Or.inl
      refine ⟨hsafe, ?_⟩
      show s.offset + _ = (fileWrite s.file s.offset _).length
      rw [hend, fileWrite_end, List.length_append]

theorem FileInv.rewind (h : FileInv initial s) (hpc : s.pc t = .rewind) (conn : Int → Int) :
    FileInv initial (s.next t conn) := by
  have hfile := h.file_at hpc rfl
  have hserved : s.PacketServed := h.placed_at hpc rfl
  rw [next_rewind conn hpc]
  exact h.goesOn (h.holds_lock hpc rfl) rfl hfile ⟨hserved, Nat.zero_le _⟩

theorem FileInv.reply (h : FileInv initial s) {reply : Reply} (hpc : s.pc t = .reply reply)
    {conn : Int → Int} (hharmless : (FileTurn.next t conn).Harmless initial s) :
    FileInv initial (s.next t conn) := by
  have hheld := h.holds_lock hpc rfl
  have hfile := h.file_at hpc rfl
  obtain ⟨hserved, hle⟩ : s.PacketServed ∧ s.offset ≤ s.file.length := h.placed_at hpc rfl
  by_cases hend : s.piece = []
  · have hlast : s.file.length ≤ s.offset := by
      have hnil : s.file.drop s.offset = [] := by
        rcases List.take_eq_nil_iff.mp hend with hzero | hnil
        · exact absurd hzero (by decide)
        · exact hnil
      exact List.drop_eq_nil_iff.mp hnil
    rw [next_reply_end conn hpc hend]
    exact h.goesOn hheld rfl hfile (Or.inl ⟨Or.inr hserved, le_antisymm hle hlast⟩)
  · obtain ⟨reply', hnext⟩ := next_reply_sent hpc hend (hharmless.1 reply hpc hend)
    rw [hnext]
    apply h.goesOn hheld
    · rfl
    · exact hfile
    · refine ⟨hserved, ?_⟩
      show s.offset + s.piece.length ≤ s.file.length
      rw [piece, List.length_take, List.length_drop]
      omega

/-- A harmless turn keeps the invariant. -/
theorem FileInv.step (h : FileInv initial s) {turn : FileTurn ι}
    (hharmless : turn.Harmless initial s) : FileInv initial (s.step turn) := by
  cases turn with
  | call t record =>
      rw [FileSystem.step]
      cases hpc : s.pc t with
      | returned ret sent => exact h.outside (by rw [hpc]; rfl) rfl
      | _ => exact h
  | next t conn =>
      rw [FileSystem.step]
      cases hpc : s.pc t with
      | lock record => exact h.lock hpc conn
      | seekEnd record => exact h.seekEnd hpc conn
      | write record => exact h.write hpc hharmless
      | rewind => exact h.rewind hpc conn
      | reply reply => exact h.reply hpc hharmless
      | unlock sent =>
          rw [next_unlock conn hpc]
          exact h.release hpc
      | returned ret sent =>
          rw [next, hpc]
          exact h

/-! ## Turns that do harm -/

/-- A timestamp overwrites the start of what the file held. -/
theorem FileInv.not_appendOnly_stamp (h : FileInv initial s) {tm : Tm}
    (hpc : s.pc t = .write (.stamp tm)) (hbad : ¬ (initial = [] ∨ s.PacketServed))
    (conn : Int → Int) : ¬ AppendOnly initial (s.next t conn) := by
  have hheld := h.holds_lock hpc rfl
  obtain ⟨hlast, hready⟩ : s.sections.getLast? = some (.stamp tm) ∧ s.Ready initial :=
    h.placed_at hpc rfl
  obtain ⟨hfile, hoff⟩ : s.file = initial ∧ s.offset = 0 := by
    rcases hready with hready | hready
    · exact absurd hready.1 hbad
    · exact hready.2
  have hsplit : s.sections.dropLast ++ [.stamp tm] = s.sections :=
    List.dropLast_append_getLast? _ hlast
  have hpos : 0 < initial.length := List.length_pos_of_ne_nil fun he => hbad (Or.inl he)
  have hstamp : 0 < (timeStamp tm).length := List.length_pos_of_ne_nil (timeStamp_ne_nil tm)
  intro happ
  have hafter := happ.file
  have hkept : ∀ file offset, { s with file := file, offset := offset }.holder = some t :=
    fun _ _ => hheld
  rw [next_write conn hpc, goto_file, goto_written _ (hkept _ _)] at hafter
  change fileWrite s.file s.offset (timeStamp tm) =
    initial ++ (s.sections.map Record.bytes).flatten at hafter
  have hlen := congrArg List.length hafter
  rw [hfile, hoff, length_fileWrite_start, ← hsplit, List.map_append, List.flatten_append,
    List.length_append, List.length_append] at hlen
  have hone : ((([.stamp tm] : List Record).map Record.bytes).flatten).length =
      (timeStamp tm).length := by
    rw [List.map_singleton, List.flatten_singleton]
    rfl
  omega

/-- A send that falls short leaves the lock held. -/
theorem FileInv.not_appendOnly_short (h : FileInv initial s) {reply : Reply}
    (hpc : s.pc t = .reply reply) (hmore : s.piece ≠ []) {conn : Int → Int}
    (hshort : conn s.piece.length ≠ s.piece.length) : ¬ AppendOnly initial (s.next t conn) := by
  have hheld := h.holds_lock hpc rfl
  obtain ⟨sent, hnext⟩ := next_reply_short hpc hmore hshort
  intro happ
  rw [hnext] at happ
  exact happ.released t ⟨-1, sent, goto_pc_self _⟩ hheld

theorem FileInv.not_appendOnly_step (h : FileInv initial s) {turn : FileTurn ι}
    (hbad : ¬ turn.Harmless initial s) : ¬ AppendOnly initial (s.step turn) := by
  cases turn with
  | call t record => exact absurd trivial hbad
  | next t conn =>
      rw [FileTurn.Harmless, not_and_or] at hbad
      rcases hbad with hshort | hstamp
      · push Not at hshort
        obtain ⟨reply, hpc, hmore, hne⟩ := hshort
        exact h.not_appendOnly_short hpc hmore hne
      · push Not at hstamp
        obtain ⟨tm, hpc, hempty, hserved⟩ := hstamp
        exact h.not_appendOnly_stamp hpc (fun he => he.elim hempty hserved) conn

end

end FileSystem

/-- At every point of a run the file holds whole records in order and no call that has returned
holds the lock, exactly when no send falls short and no timestamp comes before the first packet of
a file that was not empty. -/
theorem dataFile_iff {ι : Type} [DecidableEq ι] (initial : List UInt8) (turns : List (FileTurn ι)) :
    (∀ pre, pre <+: turns →
      FileSystem.AppendOnly initial (pre.foldl FileSystem.step (.start initial))) ↔
      Runs.Guarded FileSystem.step (fun s turn => turn.Harmless initial s) (.start initial)
        turns := by
  apply Runs.forall_prefix_iff (FileSystem.FileInv initial) (FileSystem.AppendOnly initial)
  · exact fun _ h => h.appendOnly
  · exact fun _ _ h _ hharmless => h.step hharmless
  · exact fun _ _ h _ hbad => h.not_appendOnly_step hbad
  · exact FileSystem.start_inv initial
  · exact Runs.guarded_true _ _

/-- The timer fires before the first packet, and the file held `"x\n"`; the client of the first
packet is gone when the file is sent back. -/
theorem data_lost_lock_kept :
    (¬ ∀ pre, pre <+: [.call () (.stamp ⟨0, 0, 0, 1, 0, 124⟩), .next () id, .next () id] →
      FileSystem.AppendOnly [120, 10] (pre.foldl FileSystem.step (.start [120, 10]))) ∧
    (¬ ∀ pre, pre <+: [.call () (.packet [97, 10]), .next () id, .next () id, .next () id,
        .next () id, .next () fun _ => -1] →
      FileSystem.AppendOnly [] (pre.foldl FileSystem.step (.start []))) := by
  constructor
  · intro h
    have hfile := (h _ List.prefix_rfl).file
    exact absurd hfile (by decide)
  · intro h
    exact (h _ List.prefix_rfl).released () ⟨-1, [], rfl⟩ rfl

end AesdChar
