import DurableFlow.Store.Choice
import DurableFlow.Proofs.Store.LedgerMemory
import DurableFlow.Proofs.Store.LedgerServers

/-! The kinds of stores are interchangeable. Whichever a URL names, the accesses to its contexts get
the replies that a ledger gives, as long as their numbers fit a column. -/
namespace DurableFlow.Store

def Reflects (l : Ledger) : Store → Prop
  | .memory m => m.contexts = l
  | .rows r => Rows.Reflects l r
  | .keys k => Keys.Reflects l k

/-- One access: the reply is the ledger's, and the store goes on to hold what the ledger does. -/
theorem Reflects.perform {l : Ledger} {s : Store} (hs : Reflects l s) (h : l.Orderly)
    {ts : List Moment} (hw : l.WakesAt ts) (hstep : ∀ t ∈ ts, ∀ u ∈ ts, t.InStep u) {a : Access}
    (ha : a.IsTyped) (hfits : a.FitsColumns) (hts : ∀ t ∈ a.times, t ∈ ts) (hl : l.ComesBefore a) :
    (a.perform s).1.map Reply.toMillis = (Ledger.answer a l).1.map Reply.toMillis ∧
      Reflects (Ledger.answer a l).2 (a.perform s).2 := by
  cases s with
  | memory m =>
    cases hs
    obtain ⟨hreply, m', hstore, hm⟩ := Memory.perform_answer h hw hstep ha hts hl
    rw [hstore]
    exact ⟨hreply, hm⟩
  | rows r =>
    obtain ⟨hreply, r', hstore, hr⟩ := Rows.perform_answer h hs ha hfits hl
    rw [hstore]
    exact ⟨hreply, hr⟩
  | keys k =>
    obtain ⟨hreply, k', hstore, hk⟩ := Keys.perform_answer h hs ha hfits hl
    rw [hstore]
    exact ⟨hreply, hk⟩

/-- A run of accesses: all replies are the ledger's. -/
theorem Reflects.replies {accesses : List Access} {l : Ledger} {s : Store} (hs : Reflects l s)
    (h : l.Orderly) {ts : List Moment} (hw : l.WakesAt ts)
    (hstep : ∀ t ∈ ts, ∀ u ∈ ts, t.InStep u) (htyped : ∀ a ∈ accesses, a.IsTyped)
    (hfits : ∀ a ∈ accesses, a.FitsColumns) (hts : ∀ a ∈ accesses, ∀ t ∈ a.times, t ∈ ts)
    (horder : accesses.Pairwise fun a b => ∀ p, a.filing? = some p → ∀ q, b.filing? = some q →
      p.1.micros ≤ q.1.micros ∧ p.2 < q.2)
    (hl : ∀ a ∈ accesses, l.ComesBefore a) :
    (Access.replies accesses s).map (fun r => r.map Reply.toMillis) =
      (Ledger.answers accesses l).map fun r => r.map Reply.toMillis := by
  induction accesses generalizing l s with
  | nil => rfl
  | cons a rest ih =>
    obtain ⟨ha, htyped⟩ := List.forall_mem_cons.mp htyped
    obtain ⟨hf, hfits⟩ := List.forall_mem_cons.mp hfits
    obtain ⟨ht, hts⟩ := List.forall_mem_cons.mp hts
    obtain ⟨hfirst, hl⟩ := List.forall_mem_cons.mp hl
    obtain ⟨hnext, horder⟩ := List.pairwise_cons.mp horder
    obtain ⟨hreply, hstore⟩ := hs.perform h hw hstep ha hf ht hfirst
    have hlater : ∀ b ∈ rest, (Ledger.answer a l).2.ComesBefore b := fun b hb =>
      (hl b hb).answer (hnext b hb)
    have hrest := ih hstore (h.answer ha hf hfirst) (hw.answer ht) htyped hfits hts horder hlater
    rw [Access.replies, Ledger.answers, List.map_cons, List.map_cons, hreply, hrest]

private theorem reflects_server (url ns : String) :
    Keys.Reflects [] (Keys.connect ⟨url, ns, false, []⟩) where
  connected := rfl
  rows _ := rfl
  wakeups := by
    refine ⟨[], rfl, List.Pairwise.nil, ?_⟩
    intro x
    constructor
    · intro hx
      cases hx
    · rintro ⟨e, he, _⟩
      cases he
  families _ := rfl
  contacts _ := rfl

/-- A store that has just been opened holds no contexts. -/
theorem Choice.openStore_reflects {choice : Choice} {s : Store} (h : choice.openStore = .ok s) :
    Reflects [] s := by
  cases choice with
  | memory =>
    cases h
    rfl
  | file path =>
    cases hplace : tablePlace path with
    | error f =>
      rw [openStore, hplace] at h
      cases h
    | ok place =>
      rw [openStore, hplace] at h
      cases h
      exact ⟨rfl, rfl⟩
  | server url ns =>
    cases h
    exact reflects_server url ns

/-- Accesses of the declared types, in order, to which two stores reply differently. -/
def Access.TellApart (accesses : List Access) (s t : Store) : Prop :=
  (∀ a ∈ accesses, a.IsTyped) ∧ InOrder accesses ∧
    (replies accesses s).map (fun r => r.map Reply.toMillis) ≠
      (replies accesses t).map fun r => r.map Reply.toMillis

end DurableFlow.Store
