import AesdChar.CallsReturn
import AesdChar.SharedDevice

/-!
# What the server leaves allocated

No packet of a connection meets a pending command, so the statements that forget a block are never
reached with one to forget.  At rest the driver has one block for each packet that is stored, and
removing the module frees what is left.
-/

namespace AesdChar

open CInt Heap

/-- One block for each command, and the one pending. -/
theorem Holds.length_held {s : Driver} {log : CommandLog} (h : Holds s log) :
    s.held.length = log.commands.length + s.dev.partMemPtr.toList.length := by
  have hblocks : s.dev.buffer.blocks.length = s.dev.buffer.stored.length := by
    apply List.filterMap_length_eq_length.mpr
    intro e he
    obtain ⟨b, _, _, hb, _⟩ := h.entry_load he
    rw [hb]
    rfl
  have hentries := congrArg List.length h.entries
  rw [Driver.view, List.length_map, List.length_map] at hentries
  rw [Driver.held, List.length_append, hblocks, hentries]

variable {ι : Type} [DecidableEq ι]

/-- All calls have returned: a block for each packet that is stored. -/
theorem Recorded.at_rest {fixedSizeLlseek : LlseekFn} {s : SharedDevice ι} {a : AtomicLog ι}
    (h : Recorded s.1 a) (hledger : InLedger fixedSizeLlseek s.2 a)
    (hidle : ∀ i, s.2.pc i = .idle) :
    Balanced s.2.driver ∧ s.2.driver.held.length = min 10 s.1.stored.length ∧
      CleansUp s.2.driver := by
  obtain ⟨hfree, hinv⟩ := hledger.at_rest hidle
  have hholds := (h.explained hledger.inStep).device hfree
  have hpart : s.2.driver.dev.partMemPtr = none := hholds.pending.1
  refine ⟨hinv.balanced, ?_, hinv.cleansUp_iff.mpr hpart⟩
  rw [hholds.length_held, hpart, CommandLog.ofPackets, Circular.length_rtake, List.length_map]
  rfl

/-- At every point of every such run of the server, with any of its allocations and locks failing,
each live block of the driver is designated by the device or worked on by one call.  When all calls
have returned there are as many as packets are stored, and removing the module frees each block
once. -/
theorem server_forgets_no_block (fixedSizeLlseek : LlseekFn) (pkt : ι → List UInt8)
    {steps : List ((ι × ChatStep) ⊕ KernelTurn ι)}
    (hrun : SharedDevice.HarmlessRun fixedSizeLlseek pkt steps) :
    let s := (SharedDevice.start pkt).run fixedSizeLlseek steps
    s.2.Accounted ∧ Explained s ∧
      ((∀ i, s.2.pc i = .idle) →
        Balanced s.2.driver ∧ s.2.driver.held.length = min 10 s.1.stored.length ∧
          CleansUp s.2.driver) := by
  obtain ⟨a, hledger, h⟩ := (ledger_simulates fixedSizeLlseek).users
    (Recorded.kept fixedSizeLlseek) (fun _ _ _ t h hledger => h.forgetsNone hledger.inStep t)
    (InLedger.start fixedSizeLlseek fun _ => 0) (Recorded.start pkt fun _ => 0) hrun
  exact ⟨hledger.inStep.accounted hledger.remembers, h.explained hledger.inStep, h.at_rest hledger⟩

/-- A thread that makes no call. -/
theorem idle_of_no_turn (fixedSizeLlseek : LlseekFn) {i : ι}
    {steps : List ((ι × ChatStep) ⊕ KernelTurn ι)} (hno : ∀ t, .inr t ∈ steps → t.thread ≠ i)
    {s : SharedDevice ι} (hidle : s.2.pc i = .idle) :
    (s.run fixedSizeLlseek steps).2.pc i = .idle := by
  induction steps generalizing s with
  | nil => exact hidle
  | cons turn steps ih =>
      refine @ih (fun t ht => hno t (List.mem_cons_of_mem _ ht)) (s.step fixedSizeLlseek turn) ?_
      cases turn with
      | inl own => exact hidle
      | inr t =>
          cases hheard : (s.2.events t).foldlM chatUsers.hear s.1 with
          | none =>
              rw [SharedDevice.step, Machine.joint_refused hheard]
              exact hidle
          | some c =>
              have hne := hno t List.mem_cons_self
              rw [SharedDevice.step, Machine.joint_heard hheard]
              exact (Kernel.step_others fixedSizeLlseek s.2 t hne.symm).1.trans hidle

/-- Of three clients two have stored a packet, and all calls have returned. -/
theorem server_forgets_no_block_three_clients :
    let s := (SharedDevice.start fun _ => []).run boundedLlseek threeClients
    s.2.Accounted ∧ s.2.driver.held.length = 2 ∧ CleansUp s.2.driver := by
  obtain ⟨hacc, -, hrest⟩ :=
    server_forgets_no_block boundedLlseek (fun _ => []) harmless_threeClients
  have hthreads : threeClients.all (fun turn =>
      match turn with
      | .inl _ => true
      | .inr t => decide (t.thread < 3)) = true := by decide +kernel
  have hidle : ∀ i, ((SharedDevice.start fun _ => []).run boundedLlseek threeClients).2.pc i =
      .idle := by
    intro i
    by_cases hi : i < 3
    · have hthree : ∀ i < 3, (((SharedDevice.start fun _ => []).run boundedLlseek
          threeClients).2.pc i).remaining = 0 := by decide +kernel
      exact remaining_eq_zero.mp (hthree i hi)
    · refine idle_of_no_turn boundedLlseek (fun t ht => ?_) rfl
      have hlt : t.thread < 3 := of_decide_eq_true (List.all_eq_true.mp hthreads _ ht)
      omega
  obtain ⟨-, hheld, hclean⟩ := hrest hidle
  exact ⟨hacc, hheld.trans (by decide +kernel), hclean⟩

end AesdChar
