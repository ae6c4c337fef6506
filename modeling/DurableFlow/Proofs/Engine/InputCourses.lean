import Mathlib.Data.List.Induction
import DurableFlow.Proofs.Engine.LostRaces

/-! The course of an input: what it answers and what becomes of the row, told from the row alone. The
course is the same from every row that the input leaves on its way, so it can be taken up again where it
was broken off. -/
namespace DurableFlow

/-! ## Merging again -/

namespace Table
variable {κ α : Type} [DecidableEq κ] {k k' : κ} {v w : α} {table : List (κ × α)}

theorem put_put (k : κ) (v w : α) (table : List (κ × α)) :
    put k v (put k w table) = put k v table := by
  induction table with
  | nil => simp [put]
  | cons e rest ih =>
    obtain ⟨k', x⟩ := e
    by_cases h : k' = k
    · simp [put, h]
    · simp [put, h, ih]

/-- A key that is there keeps its place, so it may as well be put first. -/
theorem put_comm (hk : k' ≠ k) (hmem : k' ∈ table.map Prod.fst) (v w : α) :
    put k v (put k' w table) = put k' w (put k v table) := by
  induction table with
  | nil => simp at hmem
  | cons e rest ih =>
    obtain ⟨key, x⟩ := e
    by_cases h' : key = k'
    · subst h'
      simp [put, hk]
    · have hrest : k' ∈ rest.map Prod.fst := by
        rcases List.mem_cons.mp hmem with heq | hrest
        · exact absurd heq.symm h'
        · exact hrest
      by_cases h : key = k
      · subst h
        simp [put, h']
      · simp [put, h, h', ih hrest]

/-- What is put last may be put before, too, if only known keys are put between. -/
theorem put_merge_put {values : List (κ × α)} (h : ∀ x ∈ values, x.1 ∈ table.map Prod.fst) :
    put k v (merge (put k v table) values) = put k v (merge table values) := by
  induction values generalizing table with
  | nil => exact put_put k v v table
  | cons x rest ih =>
    obtain ⟨key, w⟩ := x
    have hkey : key ∈ table.map Prod.fst := h _ List.mem_cons_self
    have hrest : ∀ x ∈ rest, x.1 ∈ (put key w table).map Prod.fst := fun x hx =>
      mem_keys_put.mpr (.inr (h x (List.mem_cons_of_mem _ hx)))
    change put k v (merge (put key w (put k v table)) rest) = put k v (merge (put key w table) rest)
    by_cases hk : key = k
    · rw [hk, put_put]
    · rw [← put_comm hk hkey, ih hrest]

theorem merge_append_singleton (table values : List (κ × α)) (x : κ × α) :
    merge table (values ++ [x]) = put x.1 x.2 (merge table values) := by
  simp only [merge, List.foldl_append, List.foldl_cons, List.foldl_nil]

theorem mem_keys_merge {values : List (κ × α)} {x : κ × α} (h : x ∈ values) :
    x.1 ∈ (merge table values).map Prod.fst := by
  induction values using List.reverseRecOn with
  | nil => cases h
  | append_singleton values y ih =>
    rw [merge_append_singleton, mem_keys_put]
    rcases List.mem_append.mp h with hold | hlast
    · exact .inr (ih hold)
    · rw [List.mem_singleton.mp hlast]
      exact .inl rfl

/-- Merging the same values again changes nothing. -/
theorem merge_merge (table values : List (κ × α)) :
    merge (merge table values) values = merge table values := by
  induction values using List.reverseRecOn with
  | nil => rfl
  | append_singleton values x ih =>
    rw [merge_append_singleton, merge_append_singleton, put_merge_put fun y => mem_keys_merge, ih]

end Table

/-! ## Outcomes that are no lost races -/

def Raceless {α : Type} (r : Except Failure α) : Prop := ∀ f, r = .error f → f.isStale = false

namespace Raceless
variable {α β : Type}

theorem ok (a : α) : Raceless (.ok a) := fun _ h => by cases h

theorem error {f : Failure} (h : f.isStale = false) : Raceless (.error f : Except Failure α) :=
  fun _ hg => by cases hg; exact h

protected theorem bind {next : α → Except Failure β} {r : Except Failure α} (h : Raceless r)
    (hn : ∀ a, Raceless (next a)) : Raceless (r >>= next) := by
  cases r with
  | ok a => exact hn a
  | error f => exact error (h f rfl)

theorem map {f : α → β} {r : Except Failure α} (h : Raceless r) : Raceless (r.map f) := by
  cases r with
  | ok a => exact ok _
  | error g => exact error (h g rfl)

end Raceless

theorem Store.Kind.accept_raceless (k : Store.Kind) (changes : List Context.Change) :
    Raceless (k.accept changes) := by
  have hcell (v : Json) : Raceless (Store.Rows.cell v) := by
    unfold Store.Rows.cell Store.Rows.checkSize
    split
    · exact .error rfl
    · exact .error rfl
    · exact .ok _
    · refine Raceless.map ?_
      split
      · exact .ok _
      · exact .error rfl
    · exact .ok _
  have hchanges : Raceless (changes.forM Store.Rows.checkChange) := by
    induction changes with
    | nil => exact .ok _
    | cons ch rest ih =>
      refine Raceless.bind ?_ fun _ => ih
      cases ch with
      | node v => exact (hcell v).map
      | _ => exact .ok _
  cases k with
  | rows =>
    refine hchanges.bind fun _ => ?_
    unfold Store.Rows.checkNode
    split
    · exact .error rfl
    · exact .ok _
  | _ => exact .ok _

/-! ## Courses -/

namespace Context

def timeless (c : Context) : Context :=
  { c with version := 0, completed := c.completed.map fun _ => c.inserted, updated := c.inserted }

def ended (c : Context) : Context := { c with completed := some c.inserted, wakeup := none }

def copied (k : Store.Kind) (index : Flow.NodeIndex) (r : Context) : Context :=
  { r with contact := k.told r.contact, index := some index }

end Context

namespace Engine
open DurableFlow.Flow (NodeIndex)
open Store (Kind)

def recorded (given old : Json) : Except Failure Json :=
  if given.isGiven then
    match given with
    | .object values =>
      match values.find? fun (name, _) => name ∈ reservedNames with
      | some (name, _) => .error (.reservedName name)
      | none =>
        if values.isEmpty then .ok old
        else
          match old with
          | .object old => .ok (.object (Table.merge old values))
          | v => .error (.notAMapping v)
    | v => .error (.notAMapping v)
  else .ok old

inductive Way where
  | abandon (node : Json)
  | finish
  | move (destination : Json)

def way (index : NodeIndex) (choice node : Json) : Except Failure Way :=
  match index.lookup? node with
  | .error f => .error f
  | .ok none => .ok (.abandon node)
  | .ok (some n) =>
    match n.destination choice with
    | .error f => .error f
    | .ok none => .ok .finish
    | .ok (some destination) =>
      match index.lookup? destination with
      | .error f => .error f
      | .ok none => .ok (.abandon destination)
      | .ok (some _) => .ok (.move destination)

/-- How an input ends: with a copy or a failure, and with a row; both are timeless. -/
structure Course where
  answer : Except Failure Context
  row : Context

section Courses
variable (k : Kind) (index : NodeIndex) (choice given : Json) (r : Context)

def Way.course : Way → Course
  | .abandon node => ⟨.error (.dangling r.id node), r.ended⟩
  | .finish => ⟨.ok (r.copied k index).ended, r.ended⟩
  | .move destination =>
    match k.accept [.node destination, .wakeup none] with
    | .error f => ⟨.error f, r⟩
    | .ok () => ⟨.ok { r.copied k index with node := destination, wakeup := none },
        { r with node := k.node destination, wakeup := none }⟩

def advanceCourse : Course :=
  match way index choice r.node with
  | .error f => ⟨.error f, r⟩
  | .ok w => w.course k index r

def recordCourse : Course :=
  match recorded given r.results with
  | .error f => ⟨.error f, r⟩
  | .ok results => advanceCourse k index choice { r with results }

def course : Course :=
  match checkInput { r with index := some index } choice with
  | .error f => ⟨.error f, r⟩
  | .ok () => recordCourse k index choice given { r with wakeup := none }

end Courses

variable {k : Kind} {index : NodeIndex} {choice given old new : Json} {r : Context}

/-- An input is checked by what a copy tells of its state and its nodes. -/
theorem checkInput_congr {c d : Context} (hid : c.id = d.id) (hc : c.isCompleted = d.isCompleted)
    (hn : c.node = d.node) (hi : c.index = d.index) : checkInput c choice = checkInput d choice := by
  simp only [checkInput, hid, hc, hn, hi]

theorem checkInput_copied : checkInput (r.copied k index) choice =
    checkInput { r.timeless with index := some index } choice :=
  checkInput_congr rfl (by simp [Context.isCompleted, Context.timeless, Context.copied]) rfl rfl

theorem isOpen_of_checkInput {c : Context} (h : checkInput c choice = .ok ()) :
    c.isCompleted = false := by
  cases hclosed : c.isCompleted with
  | false => rfl
  | true =>
    unfold checkInput at h
    rw [hclosed] at h
    cases h

/-- An input that passes its check has an exit to take, if its node is in the graph. -/
theorem exitAt_of_checkInput {c : Context} (hc : c.index = some index)
    (h : checkInput c choice = .ok ()) : ∃ found, index.lookup? c.node = .ok found ∧
      ∀ node, found = some node → ∃ exit, node.exitAt choice = .ok exit := by
  have hopen := isOpen_of_checkInput h
  unfold checkInput at h
  rw [hopen, hc] at h
  obtain ⟨found, hfound, h⟩ := Store.bind_eq_ok.mp h
  refine ⟨found, hfound, ?_⟩
  rintro node rfl
  cases hexit : node.exitAt choice with
  | ok exit => exact ⟨exit, rfl⟩
  | error f =>
    dsimp only at h
    rw [hexit] at h
    cases h

/-- To record again changes nothing. -/
theorem recorded_again (h : recorded given old = .ok new) : recorded given new = .ok new := by
  unfold recorded at h ⊢
  split at h
  · rename_i hgiven
    rw [if_pos hgiven]
    split at h
    · rename_i values
      cases hres : values.find? fun (name, _) => name ∈ reservedNames with
      | some x =>
        simp only [hres] at h
        cases h
      | none =>
        simp only [hres] at h ⊢
        split at h
        · rename_i hempty
          rw [if_pos hempty]
        · rename_i hempty
          rw [if_neg hempty]
          split at h
          · cases h
            simp only [Table.merge_merge]
          · cases h
    · cases h
  · rename_i hgiven
    rw [if_neg hgiven]

/-- An input may start over once it has ended the wait. -/
theorem course_awake (h : checkInput { r with index := some index } choice = .ok ()) :
    course k index choice given { r with wakeup := none } = course k index choice given r := by
  unfold course
  have hcheck : checkInput { r with wakeup := none, index := some index } choice =
      checkInput { r with index := some index } choice := rfl
  simp only [hcheck, h]

/-- An input may start over once it has recorded its results. -/
theorem course_recorded (h : checkInput { r with index := some index } choice = .ok ())
    (hr : recorded given r.results = .ok new) :
    course k index choice given { r with wakeup := none, results := new } =
      course k index choice given r := by
  unfold course
  have hcheck : checkInput { r with wakeup := none, results := new, index := some index } choice =
      checkInput { r with index := some index } choice := rfl
  simp only [hcheck, h, recordCourse, hr, recorded_again hr]

/-! ## Failures of courses -/

theorem recorded_raceless (given old : Json) : Raceless (recorded given old) := by
  unfold recorded
  split
  · split
    · split
      · exact .error rfl
      · split
        · exact .ok _
        · split
          · exact .ok _
          · exact .error rfl
    · exact .error rfl
  · exact .ok _

private theorem lookup?_raceless (index : NodeIndex) (name : Json) : Raceless (index.lookup? name) := by
  unfold NodeIndex.lookup?
  split
  · exact .ok _
  · exact .error rfl

private theorem exitAt_raceless (n : Flow.Node) (choice : Json) : Raceless (n.exitAt choice) := by
  unfold Flow.Node.exitAt
  dsimp only
  repeat' split
  all_goals first
    | exact .ok _
    | exact .error rfl

theorem way_raceless (index : NodeIndex) (choice node : Json) : Raceless (way index choice node) := by
  have hlookup := lookup?_raceless index
  have hdestination (n : Flow.Node) : Raceless (n.destination choice) := (exitAt_raceless n choice).map
  unfold way
  split
  · rename_i f hf
    exact .error (hlookup _ f hf)
  · exact .ok _
  · rename_i n _
    split
    · rename_i f hf
      exact .error (hdestination n f hf)
    · exact .ok _
    · split
      · rename_i f hf
        exact .error (hlookup _ f hf)
      · exact .ok _
      · exact .ok _

theorem advanceCourse_raceless (k : Kind) (index : NodeIndex) (choice : Json) (r : Context) :
    Raceless (advanceCourse k index choice r).answer := by
  unfold advanceCourse
  have hway := way_raceless index choice r.node
  split
  · rename_i f hf
    exact .error (hway f hf)
  · rename_i w _
    cases w with
    | abandon node => exact .error rfl
    | finish => exact .ok _
    | move destination =>
      have haccept := k.accept_raceless [.node destination, .wakeup none]
      simp only [Way.course]
      split
      · rename_i f hf
        exact .error (haccept f hf)
      · exact .ok _

theorem recordCourse_raceless (k : Kind) (index : NodeIndex) (choice given : Json) (r : Context) :
    Raceless (recordCourse k index choice given r).answer := by
  unfold recordCourse
  have hrecorded := recorded_raceless given r.results
  split
  · rename_i f hf
    exact .error (hrecorded f hf)
  · exact advanceCourse_raceless k index choice _

end Engine
end DurableFlow
