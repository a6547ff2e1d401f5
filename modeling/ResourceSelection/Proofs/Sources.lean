import ResourceSelection.Proofs.Requirements
import ResourceSelection.Settings.Sources

/-!
# What the environment can change

Settings from the environment are the usual ones with up to five fields replaced. `environment_law`
says which settings come out, and which fault does: the variables that are read as values are looked
at in a fixed order, the first one whose text stands for no value is named, and only if there is
none of these are the settings validated.

No text is passed over, then. Bytes that are no text are: a variable that holds such bytes is taken
for one that is not set, and the usual value stays where the value that was asked for is unknown.
-/

namespace ResourceSelection

/-! ## Variables -/

/-- A variable that is read as a value. -/
structure Variable where
  name : String
  /-- Whether a text stands for a value. -/
  legible : String → Bool

/-- The variable of a name whose texts are read, without the blanks around them, by a reader. -/
def Variable.readBy {α : Type} (name : String) (read : List Char → Option α) : Variable where
  name := name
  legible raw := (read (Text.trim raw.toList)).isSome

namespace Environment

variable {α : Type}

/-- The value that a variable stands for, if it holds the text of one. -/
def value? (env : Environment) (name : String) (read : List Char → Option α) : Option α :=
  (env.text? name).bind fun raw => read (Text.trim raw.toList)

/-- The variable holds a text, which stands for no value. -/
def Unreadable (env : Environment) (v : Variable) (raw : String) : Prop :=
  env.text? v.name = some raw ∧ v.legible raw = false

/-- The name and the text of a variable that cannot be read. -/
def unreadable? (env : Environment) (v : Variable) : Option (String × String) :=
  (env.text? v.name).bind fun raw => if v.legible raw then none else some (v.name, raw)

theorem unreadable?_eq_some {env : Environment} {v : Variable} {name raw : String} :
    env.unreadable? v = some (name, raw) ↔ env.Unreadable v raw ∧ name = v.name := by
  unfold unreadable? Unreadable
  rw [Option.bind_eq_some_iff]
  constructor
  · rintro ⟨text, htext, h⟩
    split at h
    · exact nomatch h
    · next hlegible =>
        cases h
        exact ⟨⟨htext, Bool.eq_false_iff.2 hlegible⟩, rfl⟩
  · rintro ⟨⟨htext, hlegible⟩, rfl⟩
    exact ⟨raw, htext, if_neg (Bool.eq_false_iff.1 hlegible)⟩

theorem unreadable?_eq_none {env : Environment} {v : Variable} :
    env.unreadable? v = none ↔ ∀ raw, ¬ env.Unreadable v raw := by
  rw [Option.eq_none_iff_forall_ne_some]
  constructor
  · intro h raw hraw
    exact h (v.name, raw) (unreadable?_eq_some.2 ⟨hraw, rfl⟩)
  · rintro h ⟨name, raw⟩ hraw
    exact h raw (unreadable?_eq_some.1 hraw).1

/-- A variable holds a text if its bytes are those of the text. -/
theorem text?_eq_some {env : Environment} {name raw : String} :
    env.text? name = some raw ↔ env name = some raw.toUTF8 := by
  unfold text?
  rw [Option.bind_eq_some_iff]
  constructor
  · rintro ⟨bytes, hbytes, hraw⟩
    unfold String.fromUTF8? at hraw
    split at hraw
    · cases hraw
      exact hbytes
    · exact nomatch hraw
  · intro h
    exact ⟨_, h, dif_pos raw.isValidUTF8⟩

/-- Reading a variable gives its value, or names it. -/
theorem read_eq (env : Environment) (name : String) (read : List Char → Option α) :
    env.read name read = match env.unreadable? (.readBy name read) with
      | some (name, raw) => .error (.unreadableVariable name raw)
      | none => .ok (env.value? name read) := by
  unfold Environment.read unreadable? value? Variable.readBy
  cases env.text? name with
  | none => rfl
  | some raw =>
      simp only [Option.bind_some]
      cases read (Text.trim raw.toList) with
      | none => rfl
      | some value => rfl

/-- The environment without the variables that hold no text. -/
def texts (env : Environment) : Environment := fun name =>
  (env name).filter fun bytes => (String.fromUTF8? bytes).isSome

theorem text?_texts (env : Environment) (name : String) : env.texts.text? name = env.text? name := by
  unfold text? texts
  cases env name with
  | none => rfl
  | some bytes =>
      cases h : String.fromUTF8? bytes with
      | none => simp [h]
      | some raw => simp [Option.filter_some, h]

end Environment

/-! ## Settings -/

namespace Settings

/-- The variables that are read as values, in the order in which they are read. -/
def readVariables : List Variable :=
  [.readBy "FAILOVER_PRIORITY_FACTOR" Decimal.float?,
    .readBy "FAILOVER_CHECK_INTERVAL_MS" (Decimal.natUpTo? 0xFFFFFFFFFFFFFFFF),
    .readBy "FAILOVER_ALIAS_SAMPLING_THRESHOLD" (Decimal.natUpTo? 0xFFFFFFFFFFFFFFFF),
    .readBy "FAILOVER_CONCURRENCY_CONTROL" Decimal.bool?]

/-- The usual settings with the values that variables stand for, and with the name as it is set. -/
def overridden (env : Environment) : Settings Float :=
  { (default : Settings Float) with
    name := (env.text? "FAILOVER_NAME").getD "failover"
    priorityFactor := (env.value? "FAILOVER_PRIORITY_FACTOR" Decimal.float?).getD 1.4
    checkInterval := (env.value? "FAILOVER_CHECK_INTERVAL_MS"
      (Decimal.natUpTo? 0xFFFFFFFFFFFFFFFF)).getD 1000
    aliasThreshold := (env.value? "FAILOVER_ALIAS_SAMPLING_THRESHOLD"
      (Decimal.natUpTo? 0xFFFFFFFFFFFFFFFF)).getD 10
    countsCalls := (env.value? "FAILOVER_CONCURRENCY_CONTROL" Decimal.bool?).getD false }

/-- The first variable that cannot be read decides, and validation if there is none. -/
theorem ofEnvironment_eq (env : Environment) :
    ofEnvironment env = match readVariables.findSome? env.unreadable? with
      | some (name, raw) => .error (.unreadableVariable name raw)
      | none => validated (overridden env) := by
  unfold ofEnvironment readVariables
  simp only [Environment.read_eq, List.findSome?_cons, List.findSome?_nil]
  cases env.unreadable? (.readBy "FAILOVER_PRIORITY_FACTOR" Decimal.float?) with
  | some entry => rfl
  | none =>
      cases env.unreadable? (.readBy "FAILOVER_CHECK_INTERVAL_MS"
        (Decimal.natUpTo? 0xFFFFFFFFFFFFFFFF)) with
      | some entry => rfl
      | none =>
          cases env.unreadable? (.readBy "FAILOVER_ALIAS_SAMPLING_THRESHOLD"
            (Decimal.natUpTo? 0xFFFFFFFFFFFFFFFF)) with
          | some entry => rfl
          | none =>
              cases env.unreadable? (.readBy "FAILOVER_CONCURRENCY_CONTROL" Decimal.bool?) with
              | some entry => rfl
              | none => rfl

theorem validated_eq_ok {s t : Settings Float} : s.validated = .ok t ↔ t = s ∧ t.Valid := by
  unfold validated
  cases h : s.validate with
  | ok =>
      simp only [Except.ok.injEq]
      constructor
      · rintro rfl
        exact ⟨rfl, validate_iff.1 h⟩
      · rintro ⟨rfl, -⟩
        rfl
  | error fault =>
      simp only [reduceCtorEq, false_iff]
      rintro ⟨rfl, hvalid⟩
      rw [validate_iff.2 hvalid] at h
      exact nomatch h

theorem validated_eq_error {s : Settings Float} {fault : SettingsFault Float} :
    s.validated = .error fault ↔ s.validate = .error fault := by
  unfold validated
  cases s.validate with
  | ok => simp
  | error fault => simp

/-- Settings come of the environment exactly if every variable that holds a text can be read and the
usual settings with these values are valid, and they are those settings. Otherwise the first
variable that cannot be read is named with its text, and if there is none the fault is that of the
changed settings. Variables that hold bytes but no text are as good as not set. -/
theorem environment_law (env : Environment) :
    (∀ s, ofEnvironment env = .ok s ↔
      (∀ v ∈ readVariables, ∀ raw, ¬ env.Unreadable v raw) ∧ s = overridden env ∧ s.Valid) ∧
    (∀ fault, ofEnvironment env = .error fault ↔
      (∃ before v after raw, readVariables = before ++ v :: after ∧
        (∀ w ∈ before, ∀ raw, ¬ env.Unreadable w raw) ∧ env.Unreadable v raw ∧
        fault = .unreadableVariable v.name raw) ∨
      (∀ v ∈ readVariables, ∀ raw, ¬ env.Unreadable v raw) ∧
        (overridden env).validate = .error fault) ∧
    (∀ name raw, env.text? name = some raw ↔ env name = some raw.toUTF8) ∧
    ofEnvironment env = ofEnvironment env.texts := by
  have hnone : readVariables.findSome? env.unreadable? = none ↔
      ∀ v ∈ readVariables, ∀ raw, ¬ env.Unreadable v raw := by
    simp only [List.findSome?_eq_none_iff, Environment.unreadable?_eq_none]
  refine ⟨fun s => ?_, fun fault => ?_, fun name raw => Environment.text?_eq_some, ?_⟩
  · rw [ofEnvironment_eq, ← hnone]
    cases readVariables.findSome? env.unreadable? with
    | some entry => simp
    | none => simp [validated_eq_ok]
  · rw [ofEnvironment_eq, ← hnone]
    cases h : readVariables.findSome? env.unreadable? with
    | none =>
        simp only [validated_eq_error, true_and]
        refine (or_iff_right ?_).symm
        rintro ⟨before, v, after, raw, hsplit, -, hv, -⟩
        exact hnone.1 h v (hsplit ▸ List.mem_append_right _ List.mem_cons_self) raw hv
    | some entry =>
        obtain ⟨name, raw⟩ := entry
        obtain ⟨before, v, after, hsplit, hv, hbefore⟩ := List.findSome?_eq_some_iff.1 h
        obtain ⟨hunreadable, rfl⟩ := Environment.unreadable?_eq_some.1 hv
        simp only [reduceCtorEq, false_and, or_false]
        constructor
        · intro hfault
          cases hfault
          exact ⟨before, v, after, raw, hsplit,
            fun w hw => Environment.unreadable?_eq_none.1 (hbefore w hw), hunreadable, rfl⟩
        · rintro ⟨before', v', after', raw', hsplit', hbefore', hv', rfl⟩
          have hfirst : readVariables.findSome? env.unreadable? = some (v'.name, raw') :=
            List.findSome?_eq_some_iff.2 ⟨before', v', after', hsplit',
              Environment.unreadable?_eq_some.2 ⟨hv', rfl⟩,
              fun w hw => Environment.unreadable?_eq_none.2 (hbefore' w hw)⟩
          obtain ⟨hname, hraw⟩ := Prod.mk.inj (Option.some.inj (h.symm.trans hfirst))
          rw [hname, hraw]
  · unfold ofEnvironment Environment.read
    simp only [Environment.text?_texts]

example : ofEnvironment (fun name =>
    if name = "FAILOVER_CHECK_INTERVAL_MS" then some "250 ms ".toUTF8 else none) =
      .error (.unreadableVariable "FAILOVER_CHECK_INTERVAL_MS" "250 ms ") := by rfl

/-- A factor in bytes that are no text. -/
def bytesForFactor : Environment := fun name =>
  if name = "FAILOVER_PRIORITY_FACTOR" then some ⟨#[0xC3, 0x28]⟩ else none

/-- A variable that is set, and to no text at all, leaves the usual settings as they are. -/
theorem bytes_taken_for_unset :
    (bytesForFactor "FAILOVER_PRIORITY_FACTOR").isSome = true ∧
    bytesForFactor.text? "FAILOVER_PRIORITY_FACTOR" = none ∧
    ofEnvironment bytesForFactor = .ok .default :=
  ⟨rfl, by decide +kernel, by rfl⟩

end Settings

end ResourceSelection
