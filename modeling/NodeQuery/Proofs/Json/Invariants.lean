import NodeQuery.Lines
import NodeQuery.Proofs.Json.Locality

/-!
# What is read

A reader yields values whose doubles are finite and whose objects have their entries in the order of
the names. Every step keeps this of the values that are complete and of the frames that are open.
-/
namespace NodeQuery

namespace Json

/-- The doubles in the value are finite, and the names in its objects are in order. -/
inductive IsProper : Json → Prop where
  | null : IsProper .null
  | boolean (value : Bool) : IsProper (.boolean value)
  | integer (value : Int) : IsProper (.integer value)
  | real {value : Float} (hfinite : value.isFinite = true) : IsProper (.real value)
  | string (value : String) : IsProper (.string value)
  | array {items : List Json} (hitems : ∀ item ∈ items, IsProper item) : IsProper (.array items)
  | object {entries : List (String × Json)} (hsorted : entries.Pairwise (·.1 < ·.1))
      (hentries : ∀ entry ∈ entries, IsProper entry.2) : IsProper (.object entries)

/-- The entries so far are those of a proper object. -/
def ProperEntries (entries : List (String × Json)) : Prop :=
  entries.Pairwise (·.1 < ·.1) ∧ ∀ entry ∈ entries, entry.2.IsProper

theorem properEntries_nil : ProperEntries [] := ⟨.nil, List.forall_mem_nil _⟩

theorem ProperEntries.insert {entries : List (String × Json)} (h : ProperEntries entries)
    (name : String) {value : Json} (hvalue : value.IsProper) :
    ProperEntries (insertEntry name value entries) := by
  refine ⟨pairwise_insertEntry name value h.1, fun entry hentry => ?_⟩
  rcases eq_of_mem_insertEntry hentry with rfl | hbefore
  · exact hvalue
  · exact h.2 entry hbefore

def Frame.IsProper : Frame → Prop
  | .array items => ∀ item ∈ items, item.IsProper
  | .entry entries _ => ProperEntries entries

/-- What is complete in the state is proper. -/
def State.IsProper : State → Prop
  | .value stack | .itemOrEnd stack | .nameOrEnd stack => ∀ frame ∈ stack, frame.IsProper
  | .name entries stack | .colon entries _ stack =>
    ProperEntries entries ∧ ∀ frame ∈ stack, frame.IsProper
  | .after json stack => json.IsProper ∧ ∀ frame ∈ stack, frame.IsProper

/-- Every number that has a value has a proper one. -/
def IsProperValuation (value? : Number → Option Json) : Prop :=
  ∀ number value, value? number = some value → value.IsProper

section Steps
variable {value? : Number → Option Json} {limit : Nat} {stack : List Frame} {c : Char}
  {text rest : List Char} {state next : State}

theorem Starts.isProper (hvalue : IsProperValuation value?)
    (hstack : ∀ frame ∈ stack, frame.IsProper) (h : Starts value? limit stack text next rest) :
    next.IsProper := by
  have hnumber : ∀ {negative text value rest},
      readMagnitude value? negative text = some (value, rest) → value.IsProper := by
    intro negative text value rest hread
    obtain ⟨number, -, hnumber⟩ := readMagnitude_eq_some_iff.mp hread
    exact hvalue number value hnumber
  cases h with
  | object => exact hstack
  | array => exact hstack
  | string => exact ⟨.string _, hstack⟩
  | negative hread => exact ⟨hnumber hread, hstack⟩
  | number _ hread => exact ⟨hnumber hread, hstack⟩
  | true => exact ⟨.boolean _, hstack⟩
  | false => exact ⟨.boolean _, hstack⟩
  | null => exact ⟨.null, hstack⟩

theorem isProper_of_startName {entries : List (String × Json)} (hentries : ProperEntries entries)
    (hstack : ∀ frame ∈ stack, frame.IsProper)
    (h : startName entries stack c text = some (next, rest)) : next.IsProper := by
  unfold startName at h
  split at h
  · split at h
    · cases h
    · cases h
      exact ⟨hentries, hstack⟩
  · cases h

theorem isProper_of_afterValue {value : Json} (hvalue : value.IsProper)
    (hstack : ∀ frame ∈ stack, frame.IsProper) (h : afterValue value stack c = some next) :
    next.IsProper := by
  unfold afterValue at h
  split at h
  · cases h
  next items stack =>
    obtain ⟨hitems, hstack⟩ := List.forall_mem_cons.mp hstack
    have hall : ∀ item ∈ value :: items, item.IsProper :=
      List.forall_mem_cons.mpr ⟨hvalue, hitems⟩
    split at h
    · cases h
      exact List.forall_mem_cons.mpr ⟨hall, hstack⟩
    · split at h
      · cases h
        exact ⟨.array fun item hitem => hall item (List.mem_reverse.mp hitem), hstack⟩
      · cases h
  next entries name stack =>
    obtain ⟨hentries, hstack⟩ := List.forall_mem_cons.mp hstack
    have hall : ProperEntries (insertEntry name value entries) :=
      ProperEntries.insert hentries name hvalue
    split at h
    · cases h
      exact ⟨hall, hstack⟩
    · split at h
      · cases h
        exact ⟨.object hall.1 hall.2, hstack⟩
      · cases h

/-- A step from a proper state leads to a proper state. -/
theorem isProper_of_step (hvalue : IsProperValuation value?) (hstate : state.IsProper)
    (h : step value? limit c text state = some (next, rest)) : next.IsProper := by
  cases state with
  | value stack => exact (startValue_eq_some_iff.mp h).isProper hvalue hstate
  | itemOrEnd stack =>
    rw [step] at h
    split at h
    · cases h
      exact ⟨.array (List.forall_mem_nil _), hstate⟩
    · have hopen : ∀ frame ∈ Frame.array [] :: stack, frame.IsProper :=
        List.forall_mem_cons.mpr ⟨List.forall_mem_nil _, hstate⟩
      exact (startValue_eq_some_iff.mp h).isProper hvalue hopen
  | nameOrEnd stack =>
    rw [step] at h
    split at h
    · cases h
      exact ⟨.object properEntries_nil.1 properEntries_nil.2, hstate⟩
    · exact isProper_of_startName properEntries_nil hstate h
  | name entries stack => exact isProper_of_startName hstate.1 hstate.2 h
  | colon entries name stack =>
    rw [step] at h
    split at h
    · cases h
      exact List.forall_mem_cons.mpr hstate
    · cases h
  | after value stack =>
    obtain ⟨behind, hafter, hpair⟩ := Option.map_eq_some_iff.mp h
    cases hpair
    exact isProper_of_afterValue hstate.1 hstate.2 hafter

/-- What is read from a proper state is a proper value. -/
theorem isProper_of_readFrom {value : Json} (hvalue : IsProperValuation value?)
    (hstate : state.IsProper) (h : readFrom value? limit state text = some value) :
    value.IsProper := by
  fun_induction readFrom value? limit state text with
  | case1 =>
    cases h
    exact hstate.1
  | case2 => cases h
  | case3 state c rest hc ih => exact ih hstate h
  | case4 => cases h
  | case5 state c rest hc next rest' hstep ih => exact ih (isProper_of_step hvalue hstate hstep) h

end Steps

/-! Records -/

theorem isProperValuation_value? : IsProperValuation Number.value? := by
  intro number value h
  unfold Number.value? at h
  split at h
  · cases h
    exact .integer _
  · obtain ⟨x, hdouble, rfl⟩ := Option.map_eq_some_iff.mp h
    exact .real (Option.filter_eq_some_iff.mp hdouble).2

theorem isProper_of_read {limit : Nat} {text : List Char} {value : Json}
    (h : read limit text = some value) : value.IsProper := by
  have hstart : (State.value []).IsProper := List.forall_mem_nil _
  exact isProper_of_readFrom isProperValuation_value? hstart h

theorem isProper_of_mapM {limit : Nat} {texts : List (List Char)} {values : List Json}
    (h : texts.mapM (read limit) = some values) : ∀ value ∈ values, value.IsProper := by
  induction texts generalizing values with
  | nil =>
    cases h
    exact List.forall_mem_nil _
  | cons text texts ih =>
    simp only [List.mapM_cons, Option.bind_eq_bind, Option.bind_eq_some_iff] at h
    obtain ⟨value, hread, rest, hrest, hvalues⟩ := h
    cases hvalues
    exact List.forall_mem_cons.mpr ⟨isProper_of_read hread, ih hrest⟩

end Json

/-- Records are proper values, on lines as in an array. -/
theorem isProper_of_readRecords {text : String} {records : List Json}
    (h : readRecords text = some records) : ∀ record ∈ records, record.IsProper := by
  unfold readRecords at h
  split at h
  · split at h
    next hread =>
      cases h
      cases Json.isProper_of_read hread with
      | array hitems => exact hitems
    · cases h
  · exact Json.isProper_of_mapM h

end NodeQuery
