import AtomicSlots.Proofs.Release
import AtomicSlots.Proofs.TwinOperations
import AtomicSlots.Script.Value

/-!
# Values are opaque

Put an image in the place of every value that a script stores, and callbacks that answer on images
what the old ones answer on values in the place of those. Then the script shows the same as before,
with images in the place of values. The function that makes the images need not be injective: no
operation compares values, and none takes a value for an empty slot.
-/
namespace AtomicSlots

variable {V W : Type}

/-! Images of what scripts show. -/

namespace SlotArray

def Rebuilt.map (f : V → W) (rebuilt : Rebuilt V) : Rebuilt W :=
  ⟨rebuilt.capacity, rebuilt.size, rebuilt.items.map (mapItem f)⟩

end SlotArray

open SlotArray (Twins)

def Item.map (f : V → W) : Item V → Item W
  | value v => .value (f v)
  | indexed i v => .indexed i (f v)

/-- The same reply with the images of its values. -/
def Reply.map (f : V → W) : Reply V → Reply W
  | done => .done
  | flag answer => .flag answer
  | flags answers => .flags answers
  | number n => .number n
  | text shown => .text shown
  | content found => .content (found.map f)
  | filling ended => .filling (ended.map f)
  | exchanged result => .exchanged ((result.map (Option.map f)).mapError f)
  | outcome ended => .outcome ended
  | outcomes ended => .outcomes ended
  | copied result target => .copied result (target.map f)
  | item found => .item (found.map (.map f))
  | items found => .items (found.map (.map f))
  | slot found => .slot (found.map (mapItem f))
  | slots found => .slots (found.map (mapItem f))
  | bounds lower upper => .bounds lower upper
  | rebuilt result => .rebuilt (result.map f)
  | panicked reason => .panicked reason

def Argument.map (f : V → W) : Argument V → Argument W
  | nothing => .nothing
  | value v => .value (f v)
  | index i => .index i
  | content found => .content (found.map f)

/-- The same line of a log with the images of its values. -/
def Entry.map (f : V → W) : Entry V → Entry W
  | event happened => .event happened
  | call site argument => .call site (argument.map f)
  | nested reply => .nested (reply.map f)
  | old found => .old (found.map f)
  | drop v => .drop (f v)

@[simp] theorem Entry.isEvent_map (f : V → W) (entry : Entry V) :
    (entry.map f).isEvent = entry.isEvent := by cases entry <;> rfl

/-- The same notebook with the images of the values in its log. Walks hold no values. -/
def Notebook.map (f : V → W) (book : Notebook V) : Notebook W :=
  ⟨book.walks, book.names, book.log.map (.map f)⟩

def StepReport.map (f : V → W) (report : StepReport V) : StepReport W :=
  ⟨report.reply.map f, report.size, report.contents.map (List.map (mapItem f)),
    report.log.map (.map f)⟩

/-- The same transcript with the images of its values. -/
def Transcript.map (f : V → W) (transcript : Transcript V) : Transcript W :=
  ⟨transcript.capacity, transcript.size, transcript.log.map (.map f),
    transcript.steps.map (.map f), transcript.final.map (mapItem f),
    transcript.dropped.map (.map f)⟩

def Origin.map (f : V → W) : Origin V → Origin W
  | empty capacity => .empty capacity
  | ofList values => .ofList (values.map f)

/-! Images of what scripts are made of. -/

/-- On the image of an argument, one callback answers with the image of what the other one answers,
on every call. -/
def Commutes {α β α' β' : Type} (g : α → α') (k : β → β') (answer : ℕ → α → β)
    (answer' : ℕ → α' → β') : Prop := ∀ call x, answer' call (g x) = k (answer call x)

/-- An operation is an image of another one if it stores the images of its values, and if its
callbacks answer on images what the other's answer on values, panic on the same calls, and perform
images of its asides. -/
inductive Operation.IsImage (f : V → W) : Operation V → Operation W → Prop
  | insert (i : UInt64) (v : V) : IsImage f (.insert i v) (.insert i (f v))
  | tryInsert (i : UInt64) (v : V) : IsImage f (.tryInsert i v) (.tryInsert i (f v))
  | getOrInsert (i : UInt64) (v : V) : IsImage f (.getOrInsert i v) (.getOrInsert i (f v))
  | getOrFill (i : UInt64) {answer : ℕ → Unit → V} {answer' : ℕ → Unit → W}
      {asides : List (List (Operation V))} {asides' : List (List (Operation W))}
      (panicAt : Option ℕ) : Commutes id f answer answer' →
      List.Forall₂ (List.Forall₂ (IsImage f)) asides asides' →
      IsImage f (.getOrFill i ⟨answer, asides, panicAt⟩) (.getOrFill i ⟨answer', asides', panicAt⟩)
  | exchange (i : UInt64) (v : V) : IsImage f (.exchange i v) (.exchange i (f v))
  | set (i : UInt64) (v : V) : IsImage f (.set i v) (.set i (f v))
  | erase (i : UInt64) : IsImage f (.erase i) (.erase i)
  | take (i : UInt64) : IsImage f (.take i) (.take i)
  | eraseIf (i : UInt64) {answer : ℕ → V → Bool} {answer' : ℕ → W → Bool}
      {asides : List (List (Operation V))} {asides' : List (List (Operation W))}
      (panicAt : Option ℕ) : Commutes f id answer answer' →
      List.Forall₂ (List.Forall₂ (IsImage f)) asides asides' →
      IsImage f (.eraseIf i ⟨answer, asides, panicAt⟩) (.eraseIf i ⟨answer', asides', panicAt⟩)
  | eraseRetry (i : UInt64) (attempts : ℕ) {answer : ℕ → V → Bool} {answer' : ℕ → W → Bool}
      {asides : List (List (Operation V))} {asides' : List (List (Operation W))}
      (panicAt : Option ℕ) : Commutes f id answer answer' →
      List.Forall₂ (List.Forall₂ (IsImage f)) asides asides' →
      IsImage f (.eraseRetry i attempts ⟨answer, asides, panicAt⟩)
        (.eraseRetry i attempts ⟨answer', asides', panicAt⟩)
  | update (i : UInt64) {make : ℕ → V → V} {make' : ℕ → W → W}
      {makeAsides : List (List (Operation V))} {makeAsides' : List (List (Operation W))}
      (makePanicAt : Option ℕ) {answer : ℕ → V → Bool} {answer' : ℕ → W → Bool}
      {asides : List (List (Operation V))} {asides' : List (List (Operation W))}
      (panicAt : Option ℕ) : Commutes f f make make' →
      List.Forall₂ (List.Forall₂ (IsImage f)) makeAsides makeAsides' →
      Commutes f id answer answer' → List.Forall₂ (List.Forall₂ (IsImage f)) asides asides' →
      IsImage f (.update i ⟨make, makeAsides, makePanicAt⟩ ⟨answer, asides, panicAt⟩)
        (.update i ⟨make', makeAsides', makePanicAt⟩ ⟨answer', asides', panicAt⟩)
  | updateRetry (i : UInt64) (attempts : ℕ) {make : ℕ → V → V} {make' : ℕ → W → W}
      {makeAsides : List (List (Operation V))} {makeAsides' : List (List (Operation W))}
      (makePanicAt : Option ℕ) {answer : ℕ → V → Bool} {answer' : ℕ → W → Bool}
      {asides : List (List (Operation V))} {asides' : List (List (Operation W))}
      (panicAt : Option ℕ) : Commutes f f make make' →
      List.Forall₂ (List.Forall₂ (IsImage f)) makeAsides makeAsides' →
      Commutes f id answer answer' → List.Forall₂ (List.Forall₂ (IsImage f)) asides asides' →
      IsImage f (.updateRetry i attempts ⟨make, makeAsides, makePanicAt⟩ ⟨answer, asides, panicAt⟩)
        (.updateRetry i attempts ⟨make', makeAsides', makePanicAt⟩ ⟨answer', asides', panicAt⟩)
  | get (i : UInt64) : IsImage f (.get i) (.get i)
  | contains (i : UInt64) : IsImage f (.contains i) (.contains i)
  | clear : IsImage f .clear .clear
  | size : IsImage f .size .size
  | isEmpty : IsImage f .isEmpty .isEmpty
  | capacity : IsImage f .capacity .capacity
  | describe (oneLine : Bool) : IsImage f (.describe oneLine) (.describe oneLine)
  | copyTo (target : List V) (offset : ℕ) :
      IsImage f (.copyTo target offset) (.copyTo (target.map f) offset)
  | fillRange (value : UInt64 → V) (first stop step : ℕ) :
      IsImage f (.fillRange value first stop step) (.fillRange (f ∘ value) first stop step)
  | eraseRange (first stop step : ℕ) :
      IsImage f (.eraseRange first stop step) (.eraseRange first stop step)
  | collect : IsImage f .collect .collect
  | collectIndexed : IsImage f .collectIndexed .collectIndexed
  | collectWhere {answer : ℕ → V → Bool} {answer' : ℕ → W → Bool}
      {asides : List (List (Operation V))} {asides' : List (List (Operation W))}
      (panicAt : Option ℕ) : Commutes f id answer answer' →
      List.Forall₂ (List.Forall₂ (IsImage f)) asides asides' →
      IsImage f (.collectWhere ⟨answer, asides, panicAt⟩) (.collectWhere ⟨answer', asides', panicAt⟩)
  | collectWhereIndex {answer answer' : ℕ → UInt64 → Bool}
      {asides : List (List (Operation V))} {asides' : List (List (Operation W))}
      (panicAt : Option ℕ) : Commutes id id answer answer' →
      List.Forall₂ (List.Forall₂ (IsImage f)) asides asides' →
      IsImage f (.collectWhereIndex ⟨answer, asides, panicAt⟩)
        (.collectWhereIndex ⟨answer', asides', panicAt⟩)
  | forEach {answer : ℕ → V → Unit} {answer' : ℕ → W → Unit}
      {asides : List (List (Operation V))} {asides' : List (List (Operation W))}
      (panicAt : Option ℕ) : List.Forall₂ (List.Forall₂ (IsImage f)) asides asides' →
      IsImage f (.forEach ⟨answer, asides, panicAt⟩) (.forEach ⟨answer', asides', panicAt⟩)
  | rebuild : IsImage f .rebuild .rebuild
  | walk (name : String) (shape : Shape) : IsImage f (.walk name shape) (.walk name shape)
  | nextItem (name : String) : IsImage f (.nextItem name) (.nextItem name)
  | drain (name : String) : IsImage f (.drain name) (.drain name)
  | bounds (name : String) : IsImage f (.bounds name) (.bounds name)

/-- A filter is an image of another one if its predicate is. -/
inductive Filter.IsImage (f : V → W) : Filter V → Filter W → Prop
  | byValue {answer : ℕ → V → Bool} {answer' : ℕ → W → Bool}
      {asides : List (List (Operation V))} {asides' : List (List (Operation W))}
      (panicAt : Option ℕ) : Commutes f id answer answer' →
      List.Forall₂ (List.Forall₂ (Operation.IsImage f)) asides asides' →
      IsImage f (.byValue ⟨answer, asides, panicAt⟩) (.byValue ⟨answer', asides', panicAt⟩)
  | byIndex {answer answer' : ℕ → UInt64 → Bool}
      {asides : List (List (Operation V))} {asides' : List (List (Operation W))}
      (panicAt : Option ℕ) : Commutes id id answer answer' →
      List.Forall₂ (List.Forall₂ (Operation.IsImage f)) asides asides' →
      IsImage f (.byIndex ⟨answer, asides, panicAt⟩) (.byIndex ⟨answer', asides', panicAt⟩)

/-- A script is an image of another one if it begins with the images of its values and performs
images of its operations. -/
structure Script.IsImage (f : V → W) (script : Script V) (image : Script W) : Prop where
  origin : image.origin = script.origin.map f
  filters : List.Forall₂ (Filter.IsImage f) script.filters.toList image.filters.toList
  operations : List.Forall₂ (Operation.IsImage f) script.operations image.operations
  showEvents : image.showEvents = script.showEvents
  showContents : image.showContents = script.showContents

namespace Notebook

variable (f : V → W)

/-- A notebook and its image. -/
abbrev Images (f : V → W) : Notebook V → Notebook W → Prop := ImageBy (Notebook.map f)

theorem respects_images : Journal.Respects (Images f) := by
  rintro event book _ rfl
  rfl

theorem walk?_map (book : Notebook V) (name : String) :
    (book.map f).walk? name = book.walk? name := rfl

end Notebook

open Notebook (Images)

namespace SlotArray

/-! Creation and release. -/

variable (f : V → W)

theorem contents_map (a : SlotArray) (m : Memory V) :
    a.contents (m.map f) = (a.contents m).map (mapItem f) := by
  rw [contents, contents, Memory.storedValues_map, List.filterMap_map, List.map_filterMap]
  refine List.filterMap_congr fun ⟨i, v⟩ _ => ?_
  simp only [Function.comp_apply, Prod.map, id_eq]
  split <;> rfl

theorem freed_map (m : Memory V) : freed (m.map f) = (freed m).map f := by
  rw [freed_eq_stored, freed_eq_stored, Memory.storedValues_map, map_snd_mapItem]

/-- Insertions of images into a fresh array. -/
theorem ofList_map (values : List V) :
    ofList (values.map f) = ((ofList values).1,
      ⟨(ofList values).2.memory.map f, (ofList values).2.host⟩) := by
  let a : SlotArray := ⟨.ofNat values.length⟩
  have hstart : Session.Twin f Eq (⟨a.freshMemory, [a.created]⟩ : Session V (List TraceEvent))
      ⟨a.freshMemory, [a.created]⟩ := ⟨(Memory.map_ofEntries f _).symm, rfl⟩
  have hrespects : Journal.Respects (Eq : List TraceEvent → List TraceEvent → Prop) := by
    rintro event events _ rfl
    rfl
  obtain ⟨-, hmemory, hhost⟩ := ((Twins.insertAll 0 values).mirrors hrespects).run hstart
  rw [ofList, ofList, List.length_map]
  exact congrArg (Prod.mk a) (congrArg₂ Session.mk hmemory hhost.symm)

theorem listed_map (a : SlotArray) (m : Memory V) (events : List TraceEvent) :
    a.listed ⟨m.map f, events⟩ = (a.listed ⟨m, events⟩).map (mapItem f) := by
  have htwins : a.Twins f (fun _ _ : List TraceEvent => True) (ImageBy (List.map (mapItem f)))
      a.toList a.toList := .toList
  obtain ⟨hend, -⟩ := (htwins.mirrors fun _ _ _ _ => trivial).run
    (s := ⟨m, events⟩) (t := ⟨m.map f, events⟩) ⟨rfl, trivial⟩
  rw [listed, listed]
  generalize (a.toList.run (⟨m, events⟩ : Session V _)).1 = answer at hend ⊢
  generalize (a.toList.run (⟨m.map f, events⟩ : Session W _)).1 = answer' at hend ⊢
  cases hend with
  | ok h => exact h
  | error reason => rfl

end SlotArray

theorem Shape.item_map (f : V → W) (shape : Shape) (item : UInt64 × V) :
    shape.item (mapItem f item) = (shape.item item).map f := by
  cases shape <;> rfl

theorem Shape.map_item_map (f : V → W) (shape : Shape) (items : List (UInt64 × V)) :
    (items.map (mapItem f)).map shape.item = (items.map shape.item).map (.map f) := by
  simp only [List.map_map]
  exact List.map_congr_left fun item _ => shape.item_map f item

namespace SlotArray.Twins

variable {f : V → W} {a : SlotArray} {α β : Type} {A : α → β → Prop}

theorem rebuild {H K : Type} {ρ : H → K → Prop} :
    a.Twins f ρ (ImageBy (Rebuilt.map f)) (a.rebuild : Program V H _) a.rebuild := by
  refine .bind .toList ?_
  rintro items _ rfl
  have hmade := ofList_map f (items.map Prod.snd)
  rw [← map_snd_mapItem] at hmade
  simp only [hmade]
  generalize ofList (items.map Prod.snd) = made
  obtain ⟨b, m, events⟩ := made
  have hreleased : b.released (m.map f) = b.released m := by
    rw [released_eq, released_eq, freed_map, List.length_map]
  simp only [hreleased, listed_map]
  exact .bind (.emitAll _) fun _ _ _ => .bind (.emit _) fun _ _ _ => .bind (.emit _) fun _ _ _ =>
    .done rfl

theorem noteImage (entry : Entry V) :
    a.Twins f (Images f) Eq (ScriptProgram.note entry) (ScriptProgram.note (entry.map f)) := by
  refine .changeHost ?_
  rintro book _ rfl
  rfl

section Calls

variable {γ δ : Type} {B : γ → δ → Prop} {site : CallSite} {aside : ℕ → ScriptProgram V Unit}
  {aside' : ℕ → ScriptProgram W Unit}
  (haside : ∀ call, a.Twins f (Images f) Eq (aside call) (aside' call)) (panicAt : Option ℕ)
  (call : ℕ)

include haside

/-- Calls with an argument and with its image. -/
theorem consultImage (g : α → β) (argument : α → Argument V) (argument' : β → Argument W)
    (hargument : ∀ x, argument' (g x) = (argument x).map f) {answer : ℕ → α → γ}
    {answer' : ℕ → β → δ} (hanswer : ∀ call x, B (answer call x) (answer' call (g x))) (x : α) :
    a.Twins f (Images f) B (ScriptProgram.consult site argument answer aside panicAt call x)
      (ScriptProgram.consult site argument' answer' aside' panicAt call (g x)) := by
  refine .consult ?_ (haside call) panicAt (hanswer call x)
  rintro book _ rfl
  rw [hargument]
  rfl

theorem consultValue {answer : ℕ → V → γ} {answer' : ℕ → W → δ}
    (hanswer : ∀ call v, B (answer call v) (answer' call (f v))) (v : V) :
    a.Twins f (Images f) B (ScriptProgram.consult site .value answer aside panicAt call v)
      (ScriptProgram.consult site .value answer' aside' panicAt call (f v)) :=
  consultImage haside panicAt call f .value .value (fun _ => rfl) hanswer v

theorem consultIndex {answer : ℕ → UInt64 → γ} {answer' : ℕ → UInt64 → δ}
    (hanswer : ∀ call i, B (answer call i) (answer' call i)) (i : UInt64) :
    a.Twins f (Images f) B (ScriptProgram.consult site .index answer aside panicAt call i)
      (ScriptProgram.consult site .index answer' aside' panicAt call i) :=
  consultImage haside panicAt call id .index .index (fun _ => rfl) hanswer i

theorem consultNothing {answer : ℕ → Unit → γ} {answer' : ℕ → Unit → δ}
    (hanswer : ∀ call x, B (answer call x) (answer' call x)) :
    a.Twins f (Images f) B
      (ScriptProgram.consult site (fun _ => .nothing) answer aside panicAt call ())
      (ScriptProgram.consult site (fun _ => .nothing) answer' aside' panicAt call ()) :=
  consultImage haside panicAt call id (fun _ => .nothing) (fun _ => .nothing) (fun _ => rfl)
    hanswer ()

end Calls

section Walks

variable {filters : Filters V} {filters' : Filters W}

theorem stepWalk (h : ∀ k call i v, a.Twins f (Images f) Eq (filters k call i v)
      (filters' k call i (f v))) (number : ℕ) (shape : Shape) (cursor : Cursor) :
    a.Twins f (Images f) (ImageBy (mapFound f)) (a.stepWalk filters number shape cursor)
      (a.stepWalk filters' number shape cursor) := by
  cases shape with
  | values | indexed => exact next cursor
  | filtered k =>
    refine nextWhere (fun cursor => .changeHost ?_) (h k) cursor
    rintro book _ rfl
    rfl

theorem continueWalk {name : String} {missing : α} {missing' : β} (hmissing : A missing missing')
    {proceed : ℕ → Walk → ScriptProgram V (α × Cursor)}
    {proceed' : ℕ → Walk → ScriptProgram W (β × Cursor)}
    (h : ∀ k walk, a.Twins f (Images f) (fun x y => A x.1 y.1 ∧ y.2 = x.2) (proceed k walk)
      (proceed' k walk)) :
    a.Twins f (Images f) A (SlotArray.continueWalk name missing proceed)
      (SlotArray.continueWalk name missing' proceed') := by
  refine .bind .readHost ?_
  rintro book _ rfl
  rw [Notebook.walk?_map]
  cases book.walk? name with
  | none => exact .done hmissing
  | some found =>
    refine .bind (h found.1 found.2) ?_
    rintro ⟨answer, cursor⟩ ⟨answer', _⟩ ⟨hanswer, rfl⟩
    refine .bind (.changeHost ?_) fun _ _ _ => .done hanswer
    rintro book _ rfl
    rfl

theorem nextItem (h : ∀ k call i v, a.Twins f (Images f) Eq (filters k call i v)
      (filters' k call i (f v))) (name : String) :
    a.Twins f (Images f) (ImageBy (Option.map (Item.map f))) (a.nextItem filters name)
      (a.nextItem filters' name) := by
  refine continueWalk (A := ImageBy (Option.map (Item.map f))) rfl fun number walk =>
    .bind (stepWalk h number walk.shape walk.cursor) ?_
  rintro ⟨found, cursor⟩ _ rfl
  refine .done ⟨?_, rfl⟩
  cases found with
  | none => rfl
  | some item => exact congrArg some (walk.shape.item_map f item)

theorem drainWalk (h : ∀ k call i v, a.Twins f (Images f) Eq (filters k call i v)
      (filters' k call i (f v))) (name : String) :
    a.Twins f (Images f) (ImageBy (List.map (Item.map f))) (a.drainWalk filters name)
      (a.drainWalk filters' name) := by
  refine continueWalk (A := ImageBy (List.map (Item.map f))) rfl fun number walk =>
    .bind (drain (stepWalk h number walk.shape) walk.cursor) ?_
  rintro ⟨items, cursor⟩ _ rfl
  exact .done ⟨walk.shape.map_item_map f items, rfl⟩

theorem collectWhere {accepts : ℕ → UInt64 → V → ScriptProgram V Bool}
    {accepts' : ℕ → UInt64 → W → ScriptProgram W Bool}
    (h : ∀ k i v, a.Twins f (Images f) Eq (accepts k i v) (accepts' k i (f v))) :
    a.Twins f (Images f) (ImageBy (Reply.map f)) (a.collectWhere accepts)
      (a.collectWhere accepts') := by
  refine .bind (drain (nextWhere (fun _ => .done rfl) h) _) ?_
  rintro ⟨items, cursor⟩ _ rfl
  refine .done (congrArg Reply.items ?_)
  simp only [List.map_map]
  rfl

theorem boundsOf (name : String) :
    a.Twins f (Images f) (ImageBy (Reply.map f)) (a.boundsOf name) (a.boundsOf name) := by
  refine .bind .readHost ?_
  rintro book _ rfl
  rw [Notebook.walk?_map]
  rcases book.walk? name with _ | ⟨number, ⟨shape, cursor⟩⟩
  · exact .done rfl
  · cases shape <;> exact .done rfl

end Walks

end SlotArray.Twins

namespace Operation

open SlotArray.Twins

variable {f : V → W} {a : SlotArray} {filters : Filters V} {filters' : Filters W}

mutual

/-- An operation and its image are twins if the filters are. -/
theorem twins_program (h : ∀ k call i v, a.Twins f (Images f) Eq (filters k call i v)
      (filters' k call i (f v))) : ∀ (operation : Operation V) {image : Operation W},
    operation.IsImage f image →
      a.Twins f (Images f) (ImageBy (Reply.map f)) (operation.program filters a)
        (image.program filters' a)
  | insert i v, _, .insert .. => .map (SlotArray.Twins.insert i v) fun _ _ h => by rw [h]; rfl
  | tryInsert i v, _, .tryInsert .. => .map (.fill i (.done rfl)) fun _ _ h => by rw [h]; rfl
  | getOrInsert i v, _, .getOrInsert .. =>
      .map (SlotArray.Twins.getOrInsert i v) fun _ _ h => by rw [h]; rfl
  | getOrFill i ⟨_, asides, _⟩, _, .getOrFill _ _ hanswer hasides =>
      .map (SlotArray.Twins.getOrFill i
        (consultNothing (twins_aside h asides hasides) _ _ hanswer)) fun _ _ h => by rw [h]; rfl
  | exchange i v, _, .exchange .. =>
      .map (SlotArray.Twins.exchange i v) fun _ _ h => by rw [h]; rfl
  | set i v, _, .set .. => .map (SlotArray.Twins.set i v) fun _ _ h => by rw [h]; rfl
  | erase i, _, .erase _ => .map (SlotArray.Twins.erase i) fun _ _ h => by rw [h]; rfl
  | take i, _, .take _ => .map (SlotArray.Twins.take i) fun _ _ h => by rw [h]; rfl
  | eraseIf i ⟨_, asides, _⟩, _, .eraseIf _ _ hanswer hasides =>
      .bind (SlotArray.Twins.eraseIf i
        (consultValue (twins_aside h asides hasides) _ _ fun call v => (hanswer call v).symm))
        fun _ _ h => .done (by rw [h]; rfl)
  | eraseRetry i attempts ⟨_, asides, _⟩, _, .eraseRetry _ _ _ hanswer hasides =>
      .map (SlotArray.Twins.eraseRetry i
        (fun call => consultValue (twins_aside h asides hasides) _ call
          fun call v => (hanswer call v).symm)
        attempts)
        fun _ _ h => by rw [h]; rfl
  | update i ⟨_, makeAsides, _⟩ ⟨_, asides, _⟩, _,
      .update _ _ _ hmake hmakeAsides hanswer hasides =>
      .bind (SlotArray.Twins.update i
        (consultValue (twins_aside h makeAsides hmakeAsides) _ _ hmake)
        (consultValue (twins_aside h asides hasides) _ _ fun call v => (hanswer call v).symm))
        fun _ _ h => .done (by rw [h]; rfl)
  | updateRetry i attempts ⟨_, makeAsides, _⟩ ⟨_, asides, _⟩, _,
      .updateRetry _ _ _ _ hmake hmakeAsides hanswer hasides =>
      .map (SlotArray.Twins.updateRetry i
        (fun call => consultValue (twins_aside h makeAsides hmakeAsides) _ call hmake)
        (fun call => consultValue (twins_aside h asides hasides) _ call
          fun call v => (hanswer call v).symm)
        attempts)
        fun _ _ h => by rw [h]; rfl
  | get i, _, .get _ => .map (SlotArray.Twins.get? i) fun _ _ h => by rw [h]; rfl
  | contains i, _, .contains _ => .map (SlotArray.Twins.contains i) fun _ _ h => by rw [h]; rfl
  | clear, _, .clear => .bind SlotArray.Twins.clear fun _ _ _ => .done rfl
  | size, _, .size => .map .size fun _ _ h => by rw [h]; rfl
  | isEmpty, _, .isEmpty => .map SlotArray.Twins.isEmpty fun _ _ h => by rw [h]; rfl
  | capacity, _, .capacity => .done rfl
  | describe oneLine, _, .describe _ => .bind .size fun _ _ h => .done (by rw [h]; rfl)
  | copyTo target offset, _, .copyTo .. =>
      .bind (SlotArray.Twins.copyTo target offset) fun _ _ h => .done (by rw [h]; rfl)
  | fillRange value first stop step, _, .fillRange .. =>
      .map (SlotArray.Twins.fillRange value first stop step) fun _ _ h => by rw [h]; rfl
  | eraseRange first stop step, _, .eraseRange .. =>
      .map (SlotArray.Twins.eraseRange first stop step) fun _ _ h => by rw [h]; rfl
  | collect, _, .collect =>
      .bind toList fun items _ h =>
        .done (by subst h; exact congrArg Reply.items (Shape.map_item_map f .values items))
  | collectIndexed, _, .collectIndexed =>
      .bind toList fun items _ h =>
        .done (by subst h; exact congrArg Reply.items (Shape.map_item_map f .indexed items))
  | collectWhere ⟨_, asides, _⟩, _, .collectWhere _ hanswer hasides =>
      SlotArray.Twins.collectWhere fun call _ v =>
        consultValue (twins_aside h asides hasides) _ call (fun call v => (hanswer call v).symm) v
  | collectWhereIndex ⟨_, asides, _⟩, _, .collectWhereIndex _ hanswer hasides =>
      SlotArray.Twins.collectWhere fun call i _ =>
        consultIndex (twins_aside h asides hasides) _ call (fun call i => (hanswer call i).symm) i
  | forEach ⟨_, asides, _⟩, _, .forEach _ hasides =>
      .bind (SlotArray.Twins.forEach fun call v =>
        consultValue (twins_aside h asides hasides) _ call
          (fun _ _ => Subsingleton.elim _ _) v) fun values _ h =>
        .done (by subst h; exact congrArg Reply.items (by simp [Item.map]))
  | rebuild, _, .rebuild => .map SlotArray.Twins.rebuild fun _ _ h => by rw [h]; rfl
  | walk name shape, _, .walk .. =>
      .bind (.changeHost (by rintro book _ rfl; rfl)) fun _ _ _ => .done rfl
  | nextItem _, _, .nextItem _ => .map (SlotArray.Twins.nextItem h _) fun _ _ h => by rw [h]; rfl
  | drain _, _, .drain _ => .map (SlotArray.Twins.drainWalk h _) fun _ _ h => by rw [h]; rfl
  | bounds name, _, .bounds _ => boundsOf name

theorem twins_aside (h : ∀ k call i v, a.Twins f (Images f) Eq (filters k call i v)
      (filters' k call i (f v))) : ∀ (asides : List (List (Operation V)))
      {images : List (List (Operation W))}, List.Forall₂ (List.Forall₂ (IsImage f)) asides images →
      ∀ call, a.Twins f (Images f) Eq (aside filters a asides call) (aside filters' a images call)
  | [], _, .nil, _ => .done rfl
  | operations :: _, _, .cons hoperations _, 0 => twins_nested h operations hoperations
  | _ :: rest, _, .cons _ hrest, call + 1 => twins_aside h rest hrest call

theorem twins_nested (h : ∀ k call i v, a.Twins f (Images f) Eq (filters k call i v)
      (filters' k call i (f v))) : ∀ (operations : List (Operation V))
      {images : List (Operation W)}, List.Forall₂ (IsImage f) operations images →
      a.Twins f (Images f) Eq (nested filters a operations) (nested filters' a images)
  | [], _, .nil => .done rfl
  | operation :: rest, _, .cons hoperation hrest =>
      .bind (twins_program h operation hoperation) fun reply _ hreply =>
        .bind (by subst hreply; exact noteImage (.nested reply)) fun _ _ _ =>
          twins_nested h rest hrest

end

end Operation

namespace ScriptSession

variable {f : V → W} {a : SlotArray}

/-- The same session with the images of its values. -/
def map (f : V → W) (s : ScriptSession V) : ScriptSession W := ⟨s.memory.map f, s.host.map f⟩

@[simp] theorem memory_map (s : ScriptSession V) : (s.map f).memory = s.memory.map f := rfl

theorem twin_map (s : ScriptSession V) : Session.Twin f (Images f) s (s.map f) := ⟨rfl, rfl⟩

theorem eq_map {s : ScriptSession V} {t : ScriptSession W} (h : Session.Twin f (Images f) s t) :
    t = s.map f := by
  obtain ⟨m, book⟩ := t
  obtain ⟨rfl, rfl⟩ := h
  rfl

theorem takeLog_map (showEvents : Bool) (s : ScriptSession V) :
    (s.map f).takeLog showEvents =
      ((s.takeLog showEvents).1.map (.map f), (s.takeLog showEvents).2.map f) := by
  refine Prod.ext ?_ rfl
  change ((s.host.log.map (Entry.map f)).reverse.filter _) = (s.host.log.reverse.filter _).map _
  rw [← List.map_reverse, List.filter_map]
  refine congrArg (List.map (Entry.map f)) (List.filter_congr fun entry _ => ?_)
  simp

/-- An operation and its image, performed to their answers or panics. -/
theorem perform_map {p : ScriptProgram V (Reply V)} {q : ScriptProgram W (Reply W)}
    (h : a.Twins f (Images f) (ImageBy (Reply.map f)) p q) (s : ScriptSession V) :
    (s.map f).perform q = ((s.perform p).1.map f, (s.perform p).2.map f) := by
  obtain ⟨hend, hst⟩ := (h.mirrors (Notebook.respects_images f)).run s.twin_map
  rw [perform, perform]
  rcases hp : p.run s with ⟨answer, s'⟩
  rcases hq : q.run (s.map f) with ⟨answer', t'⟩
  rw [hp, hq] at hend hst
  obtain rfl := eq_map hst
  cases hend with
  | ok hreply => rw [hreply]
  | error reason => rfl

end ScriptSession

theorem Origin.start_map (f : V → W) (origin : Origin V) :
    (origin.map f).start = (origin.start.1, origin.start.2.map f) := by
  cases origin with
  | empty capacity =>
    refine Prod.ext rfl ?_
    change Session.mk (SlotArray.freshMemory _) _ = Session.mk ((SlotArray.freshMemory _).map f) _
    rw [SlotArray.freshMemory, SlotArray.freshMemory, Memory.map_ofEntries]
    rfl
  | ofList values =>
    refine Prod.ext ?_ ?_
    · change (SlotArray.ofList (values.map f)).1 = (SlotArray.ofList values).1
      rw [SlotArray.ofList_map]
    · change Session.mk (SlotArray.ofList (values.map f)).2.memory
        (Notebook.ofLog ((SlotArray.ofList (values.map f)).2.host.map .event)) = _
      rw [SlotArray.ofList_map]
      simp [ScriptSession.map, Notebook.map, Notebook.ofLog, Origin.start, Entry.map]

namespace Script

variable {f : V → W} {script : Script V} {image : Script W}

theorem rel_getElem? {α β : Type} {R : α → β → Prop} {xs : List α} {ys : List β}
    (h : List.Forall₂ R xs ys) (k : ℕ) : Option.Rel R xs[k]? ys[k]? := by
  induction h generalizing k with
  | nil => exact .none
  | cons hhead _ ih =>
    cases k with
    | zero => exact .some hhead
    | succ k => exact ih k

/-- Filters and their images are twins, however deep filters use filters. -/
theorem twins_filtersAt {filters : Array (Filter V)} {images : Array (Filter W)}
    (h : List.Forall₂ (Filter.IsImage f) filters.toList images.toList) (a : SlotArray)
    (depth : ℕ) : ∀ k call i v, a.Twins f (Images f) Eq (filtersAt filters a depth k call i v)
      (filtersAt images a depth k call i (f v)) := by
  induction depth with
  | zero => exact fun _ _ _ _ => .done rfl
  | succ depth ih =>
    intro k call i v
    have hfilter := rel_getElem? h k
    rw [Array.getElem?_toList, Array.getElem?_toList] at hfilter
    rw [filtersAt, filtersAt]
    generalize filters[k]? = found at hfilter ⊢
    generalize images[k]? = found' at hfilter ⊢
    cases hfilter with
    | none => exact .done rfl
    | some hfilter =>
      cases hfilter with
      | byValue panicAt hanswer hasides =>
        exact Twins.consultValue (Operation.twins_aside ih _ hasides) panicAt call
          (fun call v => (hanswer call v).symm) v
      | byIndex panicAt hanswer hasides =>
        exact Twins.consultIndex (Operation.twins_aside ih _ hasides) panicAt call
          (fun call i => (hanswer call i).symm) i

theorem runOperations_map (h : script.IsImage f image) (a : SlotArray)
    {operations : List (Operation V)} {images : List (Operation W)}
    (hoperations : List.Forall₂ (Operation.IsImage f) operations images) (s : ScriptSession V)
    (reports : List (StepReport V)) :
    image.runOperations a images (s.map f) (reports.map (.map f)) =
      ((script.runOperations a operations s reports).1.map (.map f),
        (script.runOperations a operations s reports).2.map f) := by
  have hfilters : ∀ k call i v, a.Twins f (Images f) Eq (script.predicates a k call i v)
      (image.predicates a k call i (f v)) := by
    have hsize : image.filters.size = script.filters.size := by
      simpa using h.filters.length_eq.symm
    rw [predicates, predicates, hsize]
    exact twins_filtersAt h.filters a script.filters.size
  induction hoperations generalizing s reports with
  | nil => simp [runOperations]
  | @cons operation image' rest images hoperation _ ih =>
    have hperform :=
      ScriptSession.perform_map (Operation.twins_program hfilters operation hoperation) s
    rcases hs : s.perform (operation.program (script.predicates a) a) with ⟨reply, s'⟩
    rcases hlog : s'.takeLog script.showEvents with ⟨log, s''⟩
    have htake := s'.takeLog_map (f := f) script.showEvents
    rw [hs] at hperform
    rw [hlog] at htake
    have hcontents : (if script.showContents then some (a.contents (s''.memory.map f)) else none) =
        (if script.showContents then some (a.contents s''.memory) else none).map
          (List.map (mapItem f)) := by
      rw [SlotArray.contents_map]
      split <;> rfl
    simp only [runOperations, hs, hlog, hperform, htake, h.showEvents, h.showContents]
    have hrest := ih s'' (⟨reply, s''.memory.size,
      if script.showContents then some (a.contents s''.memory) else none, log⟩ :: reports)
    rw [← hrest, List.map_cons, StepReport.map, ← hcontents]
    rfl

theorem releaseLog_map (a : SlotArray) (m : Memory V) :
    releaseLog a (m.map f) = (releaseLog a m).map (.map f) := by
  have hreleased : a.released (m.map f) = a.released m := by
    rw [SlotArray.released_eq, SlotArray.released_eq, SlotArray.freed_map, List.length_map]
  rw [releaseLog, releaseLog, hreleased, SlotArray.freed_map]
  simp [Entry.map, SlotArray.dropping]

/-- The session of a script when all its operations have ended. -/
def lastSession (script : Script V) : ScriptSession V :=
  (script.runOperations script.origin.start.1 script.operations
    (script.origin.start.2.takeLog script.showEvents).2 []).2

theorem run_map (h : script.IsImage f image) :
    image.run = script.run.map f ∧ image.lastSession = script.lastSession.map f := by
  have hstart := script.origin.start_map f
  rcases hs : script.origin.start with ⟨a, s⟩
  have htake := s.takeLog_map (f := f) script.showEvents
  rcases ht : s.takeLog script.showEvents with ⟨log, t⟩
  have hrun := runOperations_map h a h.operations t []
  rcases hu : script.runOperations a script.operations t [] with ⟨steps, u⟩
  rw [hs] at hstart
  rw [ht] at htake
  rw [hu, List.map_nil] at hrun
  have hdropped : (releaseLog a (u.memory.map f)).filter
      (fun entry => script.showEvents || !entry.isEvent) =
        ((releaseLog a u.memory).filter fun entry => script.showEvents || !entry.isEvent).map
          (.map f) := by
    rw [releaseLog_map, List.filter_map]
    refine congrArg (List.map (Entry.map f)) (List.filter_congr fun entry _ => ?_)
    simp
  constructor
  · simp only [run, h.origin, hstart, h.showEvents, htake, hs, ht, hu, hrun, Transcript.map,
      ScriptSession.memory_map, SlotArray.contents_map, hdropped, Memory.size_map]
  · simp only [lastSession, h.origin, hstart, h.showEvents, htake, hs, ht, hu, hrun]

end Script

namespace SlotArray

/-- Values are opaque. Whatever function makes the images, the run of an image of a script shows the
images of the values and is the same otherwise: answers and outcomes, indices, counts, errors, the
calls of callbacks and the events, and at the end the table, the stamps of the occupants and the
positions of all walks. The same holds for threads: under every schedule, twins leave the image of
the memory and give related answers. -/
theorem values_are_opaque (f : V → W) :
    (∀ (script : Script V) (image : Script W), script.IsImage f image →
      image.run = script.run.map f ∧ image.lastSession = script.lastSession.map f) ∧
    ∀ {H K α β : Type} [Journal H] [Journal K] (a : SlotArray) (ρ : H → K → Prop)
      (A : α → β → Prop), Journal.Respects ρ →
      ∀ (s : Session V H) (t : Session W K), Session.Twin f ρ s t →
      ∀ (lists : List (List (Program V H α))) (lists' : List (List (Program W K β))),
        List.Forall₂ (List.Forall₂ (a.Twins f ρ A)) lists lists' →
      ∀ schedule : List ℕ,
        let pool := (Pool.mk s (lists.map .ofPrograms)).run schedule
        let twin := (Pool.mk t (lists'.map .ofPrograms)).run schedule
        Session.Twin f ρ pool.session twin.session ∧
          List.Forall₂ (fun thread other => List.Forall₂ (SameEnd A) thread.answers other.answers)
            pool.threads twin.threads := by
  refine ⟨fun script image => Script.run_map, ?_⟩
  intro H K α β _ _ a ρ A hρ s t hst lists lists' hlists schedule
  have hrun := (Pool.Mirrors.of_twins hρ hst hlists).run schedule
  exact ⟨hrun.session, hrun.threads.imp fun _ _ hthread => hthread.answers⟩

/-- The occupant that an update or a conditional removal has looked at is replaced by one with an
equal value, and the operation fails; so it does when all values are null. In the script a callback
makes the replacement, and between the threads the schedule does. -/
theorem values_are_opaque_of_equal_replacement :
    let null : ℕ → Value := fun _ => .null
    let script : Script ℕ := ⟨.empty 40, #[], [.insert 33 5,
      .update 33 ⟨fun _ v => v + 1, [[.set 33 5]], none⟩ ⟨fun _ _ => true, [], none⟩,
      .eraseIf 33 ⟨fun _ _ => true, [[.set 33 5]], none⟩, .collectIndexed], true, true⟩
    let image : Script Value := ⟨.empty 40, #[], [.insert 33 .null,
      .update 33 ⟨fun _ _ => .null, [[.set 33 .null]], none⟩ ⟨fun _ _ => true, [], none⟩,
      .eraseIf 33 ⟨fun _ _ => true, [[.set 33 .null]], none⟩, .collectIndexed], true, true⟩
    let isDeclined : Reply Value → Bool
      | .outcome .declined => true
      | _ => false
    let a : SlotArray := ⟨40⟩
    let update : Program ℕ Unit Attempt := a.update 33 (fun v => .done (v + 1)) fun _ => .done true
    let set : Program ℕ Unit Attempt := a.set 33 5 >>= fun _ => .done .absent
    let update' : Program Value Unit Attempt :=
      a.update 33 (fun _ => .done .null) fun _ => .done true
    let set' : Program Value Unit Attempt := a.set 33 .null >>= fun _ => .done .absent
    let pool := Pool.mk ⟨a.freshMemory, ()⟩ ([[update], [set, set]].map Thread.ofPrograms)
    let twin := Pool.mk ⟨a.freshMemory, ()⟩ ([[update'], [set', set']].map Thread.ofPrograms)
    let schedule := List.replicate 6 1 ++ [0, 0] ++ List.replicate 4 1 ++ [0, 0]
    image.run = script.run.map null ∧
      image.run.steps.map (fun step => isDeclined step.reply) = [false, true, false, false] ∧
      (twin.run schedule).answers = [[.replaced], [.absent, .absent]] ∧
      Session.Twin null (fun _ _ => True) (pool.run schedule).session
        (twin.run schedule).session := by
  intro null script image isDeclined a update set update' set' pool twin schedule
  have himage : script.IsImage null image := {
    origin := rfl
    filters := .nil
    operations := .cons (.insert 33 5) <| .cons
      (.update 33 none none (fun _ _ => rfl) (.cons (.cons (.set 33 5) .nil) .nil)
        (fun _ _ => rfl) .nil) <| .cons
      (.eraseIf 33 none (fun _ _ => rfl) (.cons (.cons (.set 33 5) .nil) .nil)) <|
      .cons .collectIndexed .nil
    showEvents := rfl
    showContents := rfl }
  have hupdate : a.Twins null (fun _ _ : Unit => True) Eq update update' :=
    .update 33 (fun _ => .done rfl) fun _ => .done rfl
  have hset : a.Twins null (fun _ _ : Unit => True) Eq set set' :=
    .bind (.set 33 5) fun _ _ _ => .done rfl
  obtain ⟨hscripts, hpools⟩ := values_are_opaque null
  have hpool := hpools a (fun _ _ : Unit => True) Eq (fun _ _ _ _ => trivial)
    ⟨a.freshMemory, ()⟩ ⟨a.freshMemory, ()⟩ ⟨(Memory.map_ofEntries null _).symm, trivial⟩
    [[update], [set, set]] [[update'], [set', set']]
    (.cons (.cons hupdate .nil) (.cons (.cons hset (.cons hset .nil)) .nil)) schedule
  exact ⟨(hscripts script image himage).1, by decide +kernel, by decide +kernel, hpool.1⟩

end SlotArray

end AtomicSlots
