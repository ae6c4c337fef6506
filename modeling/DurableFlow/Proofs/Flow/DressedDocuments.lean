import DurableFlow.Proofs.Flow.WellFormedDocuments
import DurableFlow.Proofs.Json.CanonicalTexts
import DurableFlow.Proofs.Store.SoundStores

/-! Dressed documents. An editor saves the body of a flow with its layout or without it, alone or in an
envelope. What is read of it is the body without layout, however it is dressed. -/
namespace DurableFlow
open DurableFlow.Flow (Definition)

namespace Json

/-! ## Values that equal themselves -/

mutual
def Proper : Json → Prop
  | .double d => d ≠ .nan
  | .array items => ProperItems items
  | .object members => (members.map Prod.fst).Nodup ∧ ProperMembers members
  | _ => True
def ProperItems : List Json → Prop
  | [] => True
  | a :: rest => Proper a ∧ ProperItems rest
def ProperMembers : List (String × Json) → Prop
  | [] => True
  | (_, a) :: rest => Proper a ∧ ProperMembers rest
end

variable {v : Json} {items : List Json} {members : List (String × Json)} {key : String}

theorem properItems_iff : ProperItems items ↔ ∀ x ∈ items, x.Proper := by
  induction items with
  | nil => simp [ProperItems]
  | cons x rest ih => rw [ProperItems, ih, List.forall_mem_cons]

theorem properMembers_iff : ProperMembers members ↔ ∀ m ∈ members, m.2.Proper := by
  induction members with
  | nil => simp [ProperMembers]
  | cons m rest ih => rw [ProperMembers, ih, List.forall_mem_cons]

theorem Proper.findD (h : (Json.object members).Proper) : (Json.findD key members).Proper := by
  obtain ⟨-, hmembers⟩ := h
  unfold Json.findD
  cases hfound : Json.find? key members with
  | none => exact trivial
  | some v => exact properMembers_iff.mp hmembers _ (Table.mem_of_find?_eq_some hfound)

private theorem place_same (p : Binary64.Place) : p.same p = true := by
  cases p with
  | exactly q => exact decide_eq_true rfl
  | below | above => rfl

private theorem sameItems_self (h : ∀ x ∈ items, x.same x = true) : sameItems items items = true := by
  induction items with
  | nil => rfl
  | cons x rest ih =>
    obtain ⟨hx, hrest⟩ := List.forall_mem_cons.mp h
    rw [sameItems, hx, ih hrest]
    rfl

private theorem sameMembers_of_subset {part : List (String × Json)} (hnodup : (members.map Prod.fst).Nodup)
    (hpart : ∀ m ∈ part, m ∈ members) (h : ∀ m ∈ part, m.2.same m.2 = true) :
    sameMembers part members = true := by
  induction part with
  | nil => rfl
  | cons m rest ih =>
    obtain ⟨hm, hrest⟩ := List.forall_mem_cons.mp hpart
    obtain ⟨hself, hselves⟩ := List.forall_mem_cons.mp h
    have hfound : Json.find? m.1 members = some m.2 := Table.find?_eq_some_of_mem hnodup hm
    rw [sameMembers, hfound, ih hrest hselves]
    exact Bool.and_eq_true_iff.mpr ⟨hself, rfl⟩

/-- A proper value equals itself. -/
theorem Proper.same_self (h : v.Proper) : v.same v = true := by
  induction v using Json.induct with
  | atom v hkey =>
    cases v with
    | null => rfl
    | string s => exact decide_eq_true rfl
    | bool b => simp [same, place?, place_same]
    | int n => simp [same, place?, place_same]
    | double d =>
      cases d with
      | nan => exact absurd rfl h
      | infinite s => cases s <;> simp [same, place?, Binary64.place?, place_same]
      | finite s m e => simp [same, place?, Binary64.place?, Binary64.value?, place_same]
    | array | object => cases hkey
  | array items ih =>
    exact sameItems_self fun x hx => ih x hx (properItems_iff.mp h x hx)
  | object members ih =>
    obtain ⟨hnodup, hmembers⟩ := h
    rw [same, sameMembers_of_subset hnodup (fun _ hm => hm)
      fun m hm => ih m hm (properMembers_iff.mp hmembers m hm)]
    simp

end Json

namespace Flow

/-! ## Layout and envelope -/

def bare (body : List (String × Json)) : List (String × Json) := body.filter fun (key, _) => key ≠ "_ui"

/-- A body as it can be saved: alone, with any layout or none, or in an envelope with any other members. -/
inductive Dressed (body : List (String × Json)) : Json → Prop
  | alone {laid : List (String × Json)} (same : bare laid = bare body) : Dressed body (.object laid)
  | enveloped {laid members : List (String × Json)} (same : bare laid = bare body)
      (inside : Json.find? "definition" members = some (.object laid)) : Dressed body (.object members)

/-- What is read of a document under a definition: its cleaned body, the checksum, and the graph or why
there is none. -/
def reading (d : Definition) (document : Json) :
    Except Failure (List (String × Json) × Nat × Except Failure Graph) := do
  let body ← clean document
  return (body, (Json.object body).checksum, compile d (.object body))

variable {body laid : List (String × Json)} {document : Json}

/-- Members other than the layout are found in a body without its layout. -/
theorem find?_bare {key : String} (h : key ≠ "_ui") : Json.find? key (bare body) = Json.find? key body := by
  induction body with
  | nil => rfl
  | cons m rest ih =>
    obtain ⟨k, v⟩ := m
    have hcons : bare ((k, v) :: rest) = if k ≠ "_ui" then (k, v) :: bare rest else bare rest := by
      simp [bare, List.filter_cons]
    by_cases hk : k = key
    · rw [hcons, if_pos (hk ▸ h)]
      simp [Json.find?, Table.find?, hk]
    · have htail : Json.find? key ((k, v) :: rest) = Json.find? key rest := if_neg hk
      rw [hcons, htail, ← ih]
      split
      · exact if_neg hk
      · rfl

/-- A body that is not an envelope itself is all that is left of it, however it is dressed. -/
theorem Dressed.clean (h : Dressed body document)
    (hbody : ∀ inner, Json.find? "definition" body ≠ some (.object inner)) :
    clean document = .ok (bare body) := by
  cases h with
  | @alone laid same =>
    have hlaid : Json.find? "definition" laid = Json.find? "definition" body :=
      calc Json.find? "definition" laid = Json.find? "definition" (bare laid) := (find?_bare (by decide)).symm
        _ = Json.find? "definition" (bare body) := by rw [same]
        _ = Json.find? "definition" body := find?_bare (by decide)
    rw [← same, Flow.clean, hlaid]
    split
    · rename_i inner hinner
      exact absurd hinner (hbody inner)
    · rfl
  | @enveloped laid members same inside =>
    rw [← same, Flow.clean, inside]
    rfl

theorem Dressed.reading (h : Dressed body document)
    (hbody : ∀ inner, Json.find? "definition" body ≠ some (.object inner)) (d : Definition) :
    reading d document =
      .ok (bare body, (Json.object (bare body)).checksum, compile d (.object (bare body))) := by
  rw [Flow.reading, h.clean hbody]
  rfl

theorem proper_bare (h : (Json.object body).Proper) : (Json.object (bare body)).Proper := by
  obtain ⟨hnodup, hmembers⟩ := h
  refine ⟨hnodup.sublist (List.filter_sublist.map _), Json.properMembers_iff.mpr fun m hm => ?_⟩
  exact Json.properMembers_iff.mp hmembers m (List.mem_filter.mp hm).1

end Flow
end DurableFlow
