import AtomicSlots.Proofs.Duties
import AtomicSlots.Proofs.Turns

/-!
# Clients that work on cells

A slot array has operations that keep a count, and below them accesses that hand a cell to any
program at all. Such a program may load its cell, store into it, start accesses to other slots or to
the same one, panic and catch panics; but the only cells it has are those that accesses handed to
it. Programs that keep to this are lawful: whatever other lawful programs do in the meantime, no
action of theirs breaks the invariant of the memory. Clients of the operations are lawful too.
-/
namespace AtomicSlots

variable {V H α β : Type}

namespace SlotArray

/-- Programs that use an array through accesses to its slots. The cells they hold are those that
satisfy a predicate, and those that accesses hand to them. -/
inductive CellClient (a : SlotArray) : (Cell → Prop) → {α : Type} → Program V H α → Prop
  | done {holds : Cell → Prop} {α : Type} (x : α) : CellClient a holds (.done x)
  | panic {holds : Cell → Prop} {α : Type} (reason : Panic) :
      CellClient a holds (.panic reason : Program V H α)
  | bind {holds : Cell → Prop} {α β : Type} {p : Program V H α} {f : α → Program V H β} :
      CellClient a holds p → (∀ x, CellClient a holds (f x)) → CellClient a holds (p >>= f)
  | caught {holds : Cell → Prop} {α : Type} {p : Program V H α} :
      CellClient a holds p → CellClient a holds p.caught
  | readHost {holds : Cell → Prop} : CellClient a holds .readHost
  | changeHost {holds : Cell → Prop} (change : H → H) : CellClient a holds (.changeHost change)
  | size {holds : Cell → Prop} : CellClient a holds size
  | adjustCount {holds : Cell → Prop} (change : ℤ) : CellClient a holds (.adjustCount change)
  | load {holds : Cell → Prop} {cell : Cell} : holds cell → CellClient a holds cell.load
  | exchangeIf {holds : Cell → Prop} {cell : Cell} (expected : Option (Occupant V))
      (new : Option V) : holds cell → CellClient a holds (cell.exchangeIf expected new)
  | swap {holds : Cell → Prop} {cell : Cell} (new : Option V) :
      holds cell → CellClient a holds (cell.swap new)
  | retire {holds : Cell → Prop} (o : Occupant V) : CellClient a holds (.perform (.retire o))
  | access {holds : Cell → Prop} (purpose : Access) (i : UInt64) {α : Type}
      {use : Cell → Program V H α} :
      (∀ cell, CellClient a (fun c => c = cell ∨ holds c) (use cell)) →
      CellClient a holds (a.access purpose i use)
  | firstFrom {holds : Cell → Prop} (i : UInt64) : CellClient a holds (a.firstFrom i)

namespace CellClient

variable {a : SlotArray} {holds : Cell → Prop} {p : Program V H α}

theorem map (f : α → β) (h : a.CellClient holds p) : a.CellClient holds (f <$> p) :=
  .bind h fun x => .done (f x)

theorem accessSignal (purpose : Access) (i : UInt64) {use : Cell → Program V H Bool}
    (h : ∀ cell, a.CellClient (fun c => c = cell ∨ holds c) (use cell)) :
    a.CellClient holds (a.accessSignal purpose i use) := .map _ (.access purpose i h)

theorem retire? (found : Option (Occupant V)) :
    a.CellClient holds (Cell.retire? found : Program V H Unit) := by
  cases found with
  | none => exact .done ()
  | some o => exact .retire o

/-! The programs on one cell that the operations of an array run. -/

variable {cell : Cell}

theorem fill (hcell : holds cell) {make : Program V H V} (h : a.CellClient holds make) :
    a.CellClient holds (cell.fill make) := by
  refine .bind (.load hcell) fun found => ?_
  cases found with
  | some o => exact .done _
  | none =>
    refine .bind h fun v => .bind (.exchangeIf _ _ hcell) fun exchange => ?_
    split <;> exact .done _

theorem replace (hcell : holds cell) (new : Option V) :
    a.CellClient holds (cell.replace new : Program V H _) :=
  .bind (.swap new hcell) fun old => .bind (.retire? old) fun _ => .done old

theorem revise (hcell : holds cell) {accepts : V → Program V H Bool}
    {change : V → Program V H (Option V)} (ha : ∀ v, a.CellClient holds (accepts v))
    (hc : ∀ v, a.CellClient holds (change v)) :
    a.CellClient holds (cell.revise accepts change) := by
  refine .bind (.load hcell) fun found => ?_
  cases found with
  | none => exact .done _
  | some o =>
    refine .bind (ha _) fun yes => ?_
    cases yes with
    | false => exact .done _
    | true =>
      refine .bind (hc _) fun new => .bind (.exchangeIf _ _ hcell) fun exchange => ?_
      split
      · exact .bind (.retire? _) fun _ => .done _
      · split <;> exact .done _

end CellClient

end SlotArray

open Program SlotArray

/-- A protocol that forbids nothing. To follow it is to act on no cell but those of slots. -/
def Anything : Protocol V H Unit := fun _ _ _ _ _ => True

theorem Anything.idle (a : SlotArray) : (Anything : Protocol V H Unit).Idle a () :=
  ⟨fun _ _ => trivial, fun _ _ _ => trivial, fun _ _ => trivial⟩

theorem Anything.reads : (Anything : Protocol V H Unit).Reads () :=
  ⟨fun _ _ => trivial, fun _ _ => trivial, fun _ => trivial⟩

variable [Journal H] {a : SlotArray}

/-- Whatever happens in the meantime, the program acts on no cell but those of slots. -/
abbrev Program.Lawful (a : SlotArray) (p : Program V H α) : Prop := p.ComesToRest a Anything ()

/-- A program that follows any protocol follows the one that forbids nothing. -/
theorem Program.Follows.lawful {G : Type} {R : Protocol V H G}
    {Q : Except Panic α → G → Memory V → Prop} {p : Program V H α} {g : G} {m : Memory V}
    (h : p.Follows a R Q g m) : p.Follows a Anything (fun _ g _ => g = ()) () m := by
  induction p generalizing g m with
  | done x => rfl
  | panic reason => rfl
  | step act next ih =>
    intro s hl hs
    obtain ⟨hact, g', -, hnext⟩ := h s hl hs
    exact ⟨hact, (), trivial, ih _ hnext⟩

theorem SlotArray.Client.lawful {p : Program V H α} (h : a.Client p) : p.Lawful a :=
  fun m => (h.dutiful m).lawful

/-- The cells that a client holds stay cells of slots, whatever happens in the meantime. -/
theorem SlotArray.CellClient.follows {holds : Cell → Prop} {p : Program V H α}
    (h : a.CellClient holds p) {m : Memory V}
    (hm : ∀ cell, holds cell → ∃ i, a.cell? m i = some cell) :
    p.Follows a Anything (fun _ g _ => g = ()) () m := by
  induction h generalizing m with
  | done x => rfl
  | panic reason => rfl
  | bind _ _ ihp ihf =>
    refine follows_bind.mpr ((ihp hm).mono ?_)
    rintro (reason | x) ⟨⟩ n hl -
    · rfl
    · exact ihf x fun cell hcell => (hm cell hcell).imp fun i hi => cell?_later hl hi
  | caught _ ih => exact (ih hm).caught
  | readHost | changeHost | size | adjustCount | load | retire =>
    exact fun s _ _ => ⟨trivial, (), trivial, rfl⟩
  | exchangeIf expected new hcell | swap new hcell =>
    intro s hl _
    obtain ⟨i, hi⟩ := hm _ hcell
    exact ⟨⟨i, cell?_later hl hi⟩, (), trivial, rfl⟩
  | @access _ purpose i _ use _ ih =>
    have huse : ∀ n cell, m.Later n → a.Sound n → a.cell? n i = some cell →
        (use cell).Follows a Anything (fun _ g _ => g = ()) () n := by
      intro n cell hl _ hc
      refine ih cell ?_
      rintro c (rfl | hcell)
      · exact ⟨i, hc⟩
      · exact (hm c hcell).imp fun j hj => cell?_later hl hj
    by_cases hp : purpose = .fill
    · subst hp
      exact follows_access_fill (Anything.idle a) (fun _ => rfl) huse
    · exact follows_access hp (fun _ _ => trivial) (fun _ => rfl)
        (fun _ _ _ _ _ => ⟨(), trivial, rfl⟩) huse
  | firstFrom i => exact ComesToRest.firstFrom Anything.reads i m

/-- A client that starts without a cell is lawful. -/
theorem SlotArray.CellClient.lawful {p : Program V H α} (h : a.CellClient (fun _ => False) p) :
    p.Lawful a := fun _ => h.follows nofun

namespace Pool

/-- All threads of a pool are lawful, and its memory serves the array. -/
abbrev Lawful (a : SlotArray) (pool : Pool V H α) : Prop :=
  pool.Follows a (fun _ => Anything) () fun _ => ()

variable {pool : Pool V H α}

theorem lawful_of_programs {s : Session V H} (hs : a.Sound s.memory)
    {programs : List (List (Program V H α))} (h : ∀ list ∈ programs, ∀ p ∈ list, p.Lawful a) :
    Lawful a ⟨s, programs.map .ofPrograms⟩ :=
  .of_comesToRest hs fun _ list hlist => h list (List.mem_of_getElem? hlist)

theorem Lawful.step (h : pool.Lawful a) (k : ℕ) : (pool.step k).Lawful a := by
  rcases Follows.step h k with ⟨-, -, hnext⟩ | ⟨act, g, -, -, -, -, hnext⟩
  · exact hnext
  · exact hnext

theorem Lawful.run (h : pool.Lawful a) (schedule : List ℕ) : (pool.run schedule).Lawful a :=
  run_induction (I := Lawful a) (fun _ k hpool => hpool.step k) h schedule

end Pool

end AtomicSlots
