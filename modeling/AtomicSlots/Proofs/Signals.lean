import AtomicSlots.Proofs.Scan
import AtomicSlots.Proofs.TwinOperations
import AtomicSlots.Script.CellOperation

/-!
# Signals and storage

A program that an access runs on a cell gives back a signal, and the access passes the signal on. That
is all that becomes of it: an access runs the program once if it reaches a cell, and nothing in the
memory depends on the signal. So two runs in which the programs on cells do the same and signal
different things have the same memory after every action, and whatever looks at the memory sees no
difference.
-/
namespace AtomicSlots

variable {V H K α β : Type}

open Program

namespace SlotArray

/-- The cell that an access hands out, and the session in which the program on the cell begins. -/
def reached [Journal H] (a : SlotArray) (purpose : Access) (i : UInt64) (s : Session V H) :
    Option (Cell × Session V H) :=
  let address := Address.ofIndex i
  if i < a.capacity then
    match s.memory.segmentAt address.entry with
    | some segment => some (⟨segment, address.offset⟩, s)
    | none =>
      if purpose = .fill then
        some (⟨s.memory.segments.size, address.offset⟩,
          ⟨(s.memory.publish address.entry).2, Journal.record (.allocated address.entry) s.host⟩)
      else
        none
  else
    none

/-- An access reaches a cell if the array has the slot and the segment is there or may be made. -/
theorem isSome_reached [Journal H] (a : SlotArray) (purpose : Access) (i : UInt64)
    (s : Session V H) : (a.reached purpose i s).isSome = true ↔ i < a.capacity ∧
      (purpose = .fill ∨ (s.memory.segmentAt (Address.ofIndex i).entry).isSome = true) := by
  rw [reached]
  by_cases hi : i < a.capacity
  · cases s.memory.segmentAt (Address.ofIndex i).entry with
    | some segment => simp [hi]
    | none => by_cases hp : purpose = .fill <;> simp [hi, hp]
  · simp [hi]

/-- The program on the cell occurs in one place of an access, behind all that the access does to get
to the cell, and its signal is the answer. -/
theorem accessSignal_eq (a : SlotArray) (purpose : Access) (i : UInt64)
    (use : Cell → Program V H Bool) :
    a.accessSignal purpose i use = a.access purpose i .done >>= fun cell? =>
      match cell? with
      | none => .done false
      | some cell => use cell := by
  rw [accessSignal, access, access]
  cases a.address? i with
  | none => rfl
  | some address =>
    cases purpose with
    | fill => simp [map_eq_pure_bind, bind_done]
    | inspect | vacate =>
      simp only [map_bind, bind_assoc]
      refine congrArg (Program.perform _ >>= ·) (funext fun found => ?_)
      cases found <;> simp [map_eq_pure_bind, bind_done]

/-- The run of an access is the run of the program on the cell that is reached. -/
theorem run_accessSignal [Journal H] (a : SlotArray) (purpose : Access) (i : UInt64)
    (use : Cell → Program V H Bool) (s : Session V H) :
    (a.accessSignal purpose i use).run s = match a.reached purpose i s with
      | none => (.ok false, s)
      | some (cell, t) => (use cell).run t := by
  rw [accessSignal_eq, reached]
  by_cases hi : i < a.capacity
  · cases hn : s.memory.segmentAt (Address.ofIndex i).entry with
    | some segment =>
      by_cases hp : purpose = .fill
      · subst hp
        simp [hi, run_access_fill_of_segment hi hn]
      · have hc : a.cell? s.memory i = some ⟨segment, (Address.ofIndex i).offset⟩ :=
          cell?_eq_some_iff.mpr ⟨hi, hn, rfl⟩
        simp [hi, run_access_bind_of_cell hp hc]
    | none =>
      by_cases hp : purpose = .fill
      · subst hp
        simp [hi, run_access_fill_of_missing hi hn]
      · simp [hi, hp, run_access_bind_of_missing hp (cell?_of_missing hn)]
  · simp [hi, access_of_le (UInt64.not_lt.mp hi)]

/-- What is reached is the cell of the slot, and no slot looks different from there. -/
theorem Sound.reached [Journal H] {a : SlotArray} {purpose : Access} {i : UInt64}
    {s t : Session V H} {cell : Cell} (hs : a.Sound s.memory)
    (h : a.reached purpose i s = some (cell, t)) :
    a.cell? t.memory i = some cell ∧ ∀ j, a.occupant? t.memory j = a.occupant? s.memory j := by
  simp only [SlotArray.reached] at h
  split at h
  case isFalse => cases h
  case isTrue hi =>
    split at h
    case h_1 segment hn =>
      cases h
      exact ⟨cell?_eq_some_iff.mpr ⟨hi, hn, rfl⟩, fun _ => rfl⟩
    case h_2 hn =>
      split at h
      case isFalse => cases h
      case isTrue =>
        cases h
        exact ⟨cell?_eq_some_iff.mpr
          ⟨hi, s.memory.segmentAt_publish_self (hs.entry_lt hi) hn, rfl⟩,
          occupant?_publish hs _⟩

/-- What two sessions show of their storage is the same: every cell and slot, the segments, what
scans answer, and what a release would free. -/
structure SameStorage [Journal H] [Journal K] (a : SlotArray) (s : Session V H) (t : Session V K) :
    Prop where
  content : ∀ cell, t.memory.content cell = s.memory.content cell
  value? : ∀ i, a.value? t.memory i = a.value? s.memory i
  segmentAt : ∀ e, t.memory.segmentAt e = s.memory.segmentAt e
  allocated : t.memory.allocated = s.memory.allocated
  first : ∀ i, (((a.firstFrom i : Program V K _).run t).1 = ((a.firstFrom i).run s).1)
  scan : ∀ i, (((a.drain a.next ⟨i, 0⟩ : Program V K _).run t).1 =
    ((a.drain a.next ⟨i, 0⟩).run s).1)
  freed : freed t.memory = freed s.memory

end SlotArray

open SlotArray

@[simp] theorem Option.map_occupant_id (content : Option (Occupant V)) :
    content.map (.map id) = content := by cases content <;> rfl

variable [Journal H] [Journal K] {a : SlotArray}

/-- Storage is seen in the memory alone. -/
theorem Session.Twin.sameStorage {ρ : H → K → Prop} {s : Session V H} {t : Session V K}
    (h : Session.Twin id ρ s t) : a.SameStorage s t := by
  have hmemory : t.memory = s.memory := h.memory.trans s.memory.map_id
  have hst : Session.Twin id (fun _ _ => True) s t := ⟨h.memory, trivial⟩
  have hfirst : ∀ i, (a.firstFrom i : Program V H _).Mirrors id (fun _ _ => True) Eq
      (a.firstFrom i : Program V K _) := by
    intro i
    refine (Program.Mirrors.firstFrom a i).mono ?_
    rintro found _ rfl
    cases found <;> rfl
  have hscan : ∀ i, (a.drain a.next ⟨i, 0⟩ : Program V H _).Mirrors id (fun _ _ => True) Eq
      (a.drain a.next ⟨i, 0⟩ : Program V K _) := by
    intro i
    refine ((Twins.drain Twins.next ⟨i, 0⟩).mirrors fun _ _ _ _ => trivial).mono ?_
    rintro ⟨items, cursor⟩ _ rfl
    simp
  exact {
    content := fun cell => by rw [hmemory]
    value? := fun i => by rw [hmemory]
    segmentAt := fun e => by rw [hmemory]
    allocated := by rw [hmemory]
    first := fun i => ((hfirst i).run hst).1.eq.symm
    scan := fun i => ((hscan i).run hst).1.eq.symm
    freed := by rw [hmemory] }

/-! Scripts on cells. Their replies show signals, and so does what callbacks note about replies. -/

/-- A reply that does not show what a signal was. -/
def Reply.hideFlag : Reply V → Reply V
  | flag _ => .flag false
  | reply => reply

def Entry.hideFlag : Entry V → Entry V
  | nested reply => .nested reply.hideFlag
  | entry => entry

@[simp] theorem Entry.isEvent_hideFlag (entry : Entry V) :
    entry.hideFlag.isEvent = entry.isEvent := by cases entry <;> rfl

/-- Two notebooks whose logs differ at most in signals that were passed on. -/
def Notebook.SameButFlags (book other : Notebook V) : Prop :=
  book.log.map Entry.hideFlag = other.log.map Entry.hideFlag

namespace CellReport

/-- A report that does not show signals. -/
def hideFlags (report : CellReport V) : CellReport V :=
  ⟨report.reply.hideFlag, report.allocated, report.log.map Entry.hideFlag⟩

end CellReport

namespace CellTranscript

/-- A transcript that does not show signals. -/
def hideFlags (transcript : CellTranscript V) : CellTranscript V :=
  { transcript with steps := transcript.steps.map CellReport.hideFlags }

end CellTranscript

namespace CellOperation

mutual

/-- The same operation with the signals of its acts. -/
def plain : CellOperation V → CellOperation V
  | access purpose i act _ aside panics => .access purpose i act none (plainAll aside) panics
  | first start => .first start
  | scan start => .scan start
  | capacity => .capacity
  | segmentCount => .segmentCount

def plainAll : List (CellOperation V) → List (CellOperation V)
  | [] => []
  | operation :: rest => operation.plain :: plainAll rest

end

end CellOperation

/-- The same script with the signals of its acts. -/
def CellScript.plain (script : CellScript V) : CellScript V :=
  { script with operations := script.operations.map CellOperation.plain }

namespace Notebook.SameButFlags

theorem note {book other : Notebook V} (h : book.SameButFlags other) {entry entry' : Entry V}
    (he : entry.hideFlag = entry'.hideFlag) :
    (book.note entry).SameButFlags (other.note entry') := by
  change entry.hideFlag :: _ = entry'.hideFlag :: _
  rw [he, h]

theorem respects : Journal.Respects (SameButFlags : Notebook V → Notebook V → Prop) :=
  fun _ _ _ h => h.note rfl

end Notebook.SameButFlags

open Notebook (SameButFlags)

/-- Entries that differ in signals only are noted by twins. -/
theorem SlotArray.Twins.note {entry entry' : Entry V} (h : entry.hideFlag = entry'.hideFlag) :
    a.Twins id SameButFlags Eq (ScriptProgram.note entry) (ScriptProgram.note entry') :=
  .changeHost fun _ _ hbook => hbook.note h

theorem CellAct.twins_perform (cell : Cell) (content : Option (Occupant V)) (act : CellAct V) :
    a.Twins id SameButFlags Eq (act.perform cell content) (act.perform cell content) := by
  cases act with
  | peek => exact .map (.load cell) fun _ _ h => by simp [h]
  | fill v => exact .map (.exchangeIf cell none (some v)) fun _ _ h => by rw [h]; rfl
  | put v => exact .map (.replace cell (some v)) fun _ _ h => by simp [h]
  | empty =>
    refine .bind (.replace cell none) ?_
    rintro old _ rfl
    rw [Option.map_occupant_id]
    exact .bind (.note rfl) fun _ _ _ => .done rfl
  | putIfSame v =>
    have hexchange : a.Twins id SameButFlags (ImageBy (Exchange.map id))
        (cell.exchangeIf content (some v) : ScriptProgram V _)
        (cell.exchangeIf (content.map (.map id)) (some v)) := .exchangeIf cell content (some v)
    have hretire : a.Twins id SameButFlags Eq (Cell.retire? content : ScriptProgram V Unit)
        (Cell.retire? (content.map (.map id))) := .retire? content
    rw [Option.map_occupant_id] at hexchange hretire
    refine .bind hexchange ?_
    rintro ⟨won, now⟩ _ rfl
    cases won with
    | false => exact .done rfl
    | true => exact .bind hretire fun _ _ _ => .done rfl

/-- Two replies that differ at most in a signal that was passed on. -/
abbrev Reply.SameButFlag (reply other : Reply V) : Prop := reply.hideFlag = other.hideFlag

namespace CellOperation

mutual

/-- An operation and the one that signals what its acts signal do the same to the storage. -/
theorem twins_program : ∀ operation : CellOperation V,
    a.Twins id SameButFlags Reply.SameButFlag (operation.program a) (operation.plain.program a)
  | access purpose i act signal aside panics => by
    have huse : ∀ cell : Cell, a.Twins id SameButFlags (fun _ _ : Bool => True)
        (do
          let content ← cell.load
          ScriptProgram.consult .cell .content (fun _ _ => ()) (fun _ => nested a aside)
            (if panics then some 0 else none) 0 (content.map Occupant.value)
          let answer ← act.perform cell content
          return signal.getD answer)
        (do
          let content ← cell.load
          ScriptProgram.consult .cell .content (fun _ _ => ())
            (fun _ => nested a (plainAll aside)) (if panics then some 0 else none) 0
            (content.map Occupant.value)
          let answer ← act.perform cell content
          return (none : Option Bool).getD answer) := by
      intro cell
      refine .bind (.load cell) ?_
      rintro content _ rfl
      rw [Option.map_occupant_id]
      refine .bind (.consult (fun _ _ h => h.note rfl) (twins_nested aside) _ rfl) fun _ _ _ => ?_
      exact .bind (act.twins_perform cell content) fun _ _ _ => .done trivial
    exact .bind (.accessSignal purpose i trivial huse) fun _ _ _ => .done rfl
  | first start => .bind (.firstFrom start) fun found _ h => .done <| by
      subst h
      cases found <;> rfl
  | scan start => .bind (.drain .next ⟨start, 0⟩) fun found _ h => .done <| by
      subst h
      simp
  | capacity => .done rfl
  | segmentCount => .done rfl

theorem twins_nested : ∀ operations : List (CellOperation V),
    a.Twins id SameButFlags Eq (nested a operations) (nested a (plainAll operations))
  | [] => .done rfl
  | operation :: rest => .bind (twins_program operation) fun _ _ h =>
      .bind (.note (congrArg Entry.nested h)) fun _ _ _ => twins_nested rest

end

end CellOperation

/-- Two logs that differ at most in signals are still so after events are left out of both. -/
theorem ScriptSession.takeLog_sameButFlags {s t : ScriptSession V}
    (h : Session.Twin id SameButFlags s t) (showEvents : Bool) :
    (s.takeLog showEvents).1.map Entry.hideFlag = (t.takeLog showEvents).1.map Entry.hideFlag ∧
      Session.Twin id SameButFlags (s.takeLog showEvents).2 (t.takeLog showEvents).2 := by
  refine ⟨?_, h.memory, rfl⟩
  have hfilter : ∀ log : List (Entry V),
      (log.filter fun entry => showEvents || !entry.isEvent).map Entry.hideFlag =
        (log.map Entry.hideFlag).filter fun entry => showEvents || !entry.isEvent := by
    intro log
    rw [List.filter_map]
    refine congrArg (List.map Entry.hideFlag) (List.filter_congr fun entry _ => ?_)
    simp
  change (s.host.log.reverse.filter _).map _ = (t.host.log.reverse.filter _).map _
  rw [hfilter, hfilter, List.map_reverse, List.map_reverse, h.host]

/-- Twins that are performed to their answers or panics show the same but for signals. -/
theorem ScriptSession.perform_sameButFlag {s t : ScriptSession V}
    (h : Session.Twin id SameButFlags s t) {p q : ScriptProgram V (Reply V)}
    (hpq : a.Twins id SameButFlags Reply.SameButFlag p q) :
    Reply.SameButFlag (s.perform p).1 (t.perform q).1 ∧
      Session.Twin id SameButFlags (s.perform p).2 (t.perform q).2 := by
  obtain ⟨hend, hst⟩ := (hpq.mirrors Notebook.SameButFlags.respects).run h
  rw [ScriptSession.perform, ScriptSession.perform]
  rcases hp : p.run s with ⟨answer, s'⟩
  rcases hq : q.run t with ⟨answer', t'⟩
  rw [hp, hq] at hend hst
  cases hend with
  | ok hreply => exact ⟨hreply, hst⟩
  | error reason => exact ⟨rfl, hst⟩

namespace CellScript

theorem runOperations_plain (showEvents : Bool) (operations : List (CellOperation V))
    {s t : ScriptSession V} (h : Session.Twin id SameButFlags s t)
    {reports reports' : List (CellReport V)}
    (hreports : reports.map CellReport.hideFlags = reports'.map CellReport.hideFlags) :
    (runOperations showEvents a operations s reports).1.map CellReport.hideFlags =
        (runOperations showEvents a (operations.map .plain) t reports').1.map
          CellReport.hideFlags ∧
      Session.Twin id SameButFlags (runOperations showEvents a operations s reports).2
        (runOperations showEvents a (operations.map .plain) t reports').2 := by
  induction operations generalizing s t reports reports' with
  | nil =>
    refine ⟨?_, h⟩
    change reports.reverse.map _ = reports'.reverse.map _
    rw [List.map_reverse, List.map_reverse, hreports]
  | cons operation rest ih =>
    obtain ⟨hreply, hst⟩ := ScriptSession.perform_sameButFlag h (operation.twins_program (a := a))
    obtain ⟨hlog, hst'⟩ := ScriptSession.takeLog_sameButFlags hst showEvents
    have hallocated := (congrArg Memory.allocated hst'.memory).symm
    rw [List.map_cons, runOperations, runOperations]
    have hreport := congr (congr (congrArg CellReport.mk hreply) hallocated) hlog
    exact ih hst' (congrArg₂ List.cons hreport hreports)

/-- A script and the one with the signals of its acts show the same but for signals. -/
theorem hideFlags_run_plain (script : CellScript V) :
    script.run.hideFlags = script.plain.run.hideFlags := by
  have hstart : Session.Twin id SameButFlags
      (⟨(SlotArray.mk script.capacity).freshMemory, .empty⟩ : ScriptSession V)
      ⟨(SlotArray.mk script.capacity).freshMemory, .empty⟩ := ⟨(Memory.map_id _).symm, rfl⟩
  have hreports : ([] : List (CellReport V)).map CellReport.hideFlags = [].map _ := rfl
  obtain ⟨hsteps, hst⟩ := runOperations_plain script.showEvents (a := ⟨script.capacity⟩)
    script.operations hstart hreports
  have hmemory := hst.memory.trans (Memory.map_id _)
  simp only [CellTranscript.hideFlags, run, plain, hsteps, hmemory]

end CellScript

namespace SlotArray

/-- Signals do not influence the storage. An access runs the program on its cell once or not at all:
the program stands in one place of the access, its run is the run of the access, and it is reached if
and only if the array has the slot and the segment is there or may be made. Then the program's signal
is the answer, and `false` otherwise. And when two pools of threads are twins, with signals that have
nothing to do with each other, then under every schedule their storage is the same after each action,
and so are their answers apart from signals. The same goes for scripts on cells, nested ones included:
what each step allocates and what scans answer, what stands in the slots at the end, and what the
release frees do not depend on the signals that are given back instead of those of the acts. -/
theorem signals_do_not_reach_storage (a : SlotArray) :
    (∀ (purpose : Access) (i : UInt64) (use : Cell → Program V H Bool),
      (a.accessSignal purpose i use = a.access purpose i .done >>= fun cell? =>
        match cell? with
        | none => .done false
        | some cell => use cell) ∧
      ∀ s : Session V H,
        ((a.accessSignal purpose i use).run s = match a.reached purpose i s with
          | none => (.ok false, s)
          | some (cell, t) => (use cell).run t) ∧
        ((a.reached purpose i s).isSome = true ↔ i < a.capacity ∧
          (purpose = .fill ∨ (s.memory.segmentAt (Address.ofIndex i).entry).isSome = true)) ∧
        (a.Sound s.memory → ∀ cell t, a.reached purpose i s = some (cell, t) →
          a.cell? t.memory i = some cell ∧
            ∀ j, a.occupant? t.memory j = a.occupant? s.memory j)) ∧
    (∀ (ρ : H → K → Prop) (A : α → β → Prop), Journal.Respects ρ →
      ∀ (s : Session V H) (t : Session V K), t.memory = s.memory → ρ s.host t.host →
      ∀ (lists : List (List (Program V H α))) (lists' : List (List (Program V K β))),
        List.Forall₂ (List.Forall₂ (a.Twins id ρ A)) lists lists' →
      ∀ schedule : List ℕ,
        let pool := (Pool.mk s (lists.map .ofPrograms)).run schedule
        let twin := (Pool.mk t (lists'.map .ofPrograms)).run schedule
        a.SameStorage pool.session twin.session ∧
          List.Forall₂ (fun thread other => List.Forall₂ (SameEnd A) thread.answers other.answers)
            pool.threads twin.threads) ∧
    ∀ script script' : CellScript V, script.plain = script'.plain →
      script.run.hideFlags = script'.run.hideFlags := by
  refine ⟨fun purpose i use => ⟨a.accessSignal_eq purpose i use, fun s => ?_⟩, ?_, ?_⟩
  · exact ⟨a.run_accessSignal purpose i use s, a.isSome_reached purpose i s,
      fun hs cell t => hs.reached⟩
  · intro ρ A hρ s t hmemory hhost lists lists' hlists schedule
    have hst : Session.Twin id ρ s t := ⟨hmemory.trans s.memory.map_id.symm, hhost⟩
    have hrun := (Pool.Mirrors.of_twins hρ hst hlists).run schedule
    exact ⟨hrun.session.sameStorage, hrun.threads.imp fun _ _ hthread => hthread.answers⟩
  · intro script script' hplain
    rw [script.hideFlags_run_plain, script'.hideFlags_run_plain, hplain]

/-- Two threads fill the same slot, one of them twice, and one pair of them signals the opposite of
what happened. Beside them goes a script in which an access signals something else than its act did,
around a nested access. -/
theorem signals_do_not_reach_storage_of_wrong_signals :
    let a : SlotArray := ⟨40⟩
    let fill (signal : Bool → Bool) : Program ℕ Unit Bool :=
      a.accessSignal .fill 33 fun cell =>
        (fun exchange => signal exchange.won) <$> cell.exchangeIf none (some 7)
    let pool (signal : Bool → Bool) := Pool.mk ⟨a.freshMemory, ()⟩
      ([[fill signal, fill signal], [fill signal]].map Thread.ofPrograms)
    let schedule := [0, 1, 0, 1, 0, 1, 1, 0, 0, 0, 0, 0, 0, 1]
    let script (signal : Option Bool) : CellScript ℕ :=
      ⟨40, [.access .fill 33 (.put 7) signal [.access .vacate 33 .empty signal [] false] false,
        .first 0], true⟩
    ((pool id).run schedule).answers = [[false, false], [true]] ∧
      ((pool not).run schedule).answers = [[true, true], [false]] ∧
      ((pool not).run schedule).session.memory.storedValues = [(33, 7)] ∧
      a.SameStorage ((pool id).run schedule).session ((pool not).run schedule).session ∧
      (script (some false)).run.hideFlags = (script none).run.hideFlags := by
  intro a fill pool schedule script
  have hfill : a.Twins id (fun _ _ : Unit => True) (fun _ _ : Bool => True) (fill id) (fill not) :=
    .accessSignal .fill 33 trivial fun cell => .map (.exchangeIf cell none (some 7)) fun _ _ _ =>
      trivial
  obtain ⟨-, hpools, hscripts⟩ := signals_do_not_reach_storage (V := ℕ) (H := Unit) (K := Unit) a
  have hpool := hpools (fun _ _ => True) (fun _ _ : Bool => True) (fun _ _ _ _ => trivial)
    ⟨a.freshMemory, ()⟩ ⟨a.freshMemory, ()⟩ rfl trivial [[fill id, fill id], [fill id]]
    [[fill not, fill not], [fill not]]
    (.cons (.cons hfill (.cons hfill .nil)) (.cons (.cons hfill .nil) .nil)) schedule
  exact ⟨by decide +kernel, by decide +kernel, by decide +kernel, hpool.1,
    hscripts (script (some false)) (script none) rfl⟩

end SlotArray

end AtomicSlots
