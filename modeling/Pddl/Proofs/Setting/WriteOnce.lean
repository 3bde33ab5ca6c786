import Pddl.Setting
import Mathlib
/-!
# Settings are write-once

A setting is a cell written at most once. Whatever calls are made on a fresh setting, it holds
the value of the first call that completed (`run_state`): an access that stops the program
because the default cannot be read leaves it unread, and so does nothing else. Hence:

* until a call completes, an access reads the variable, and falls back to the default only when
  the variable is unset or cannot be read; it stops the program exactly when it falls back and
  the default cannot be read either, so a readable variable never reaches a bad default
  (`readFrom_value_iff`, `readFrom_halts_iff`);
* once a call completed, every access gives the value it stored, whatever the variable holds;
* forcing a value succeeds exactly while no call has completed, and is refused afterwards with
  the setting left as it was.

Main statement: `setting_is_write_once`.
-/

namespace Pddl

namespace Setting

variable {α : Type}

/-! ## Reading on the first access -/

section Reading

variable (s : Setting α)

theorem readDefault_of_ok {d : α} (h : s.read s.default = .ok d) : s.readDefault = (.value d, []) := by
  simp [readDefault, h]

theorem readDefault_of_error {e : String} (h : s.read s.default = .error e) :
    s.readDefault = (.halt s.invalidDefaultMessage, ["invalid default value: " ++ e]) := by
  simp [readDefault, h]

theorem readFrom_of_ok {t : String} {v : α} (h : s.read t = .ok v) :
    s.readFrom (some t) = (.value v, []) := by
  simp [readFrom, h]

theorem readFrom_of_error {t e : String} (h : s.read t = .error e) :
    s.readFrom (some t) = (s.readDefault.1, s.unreadableWarning t e :: s.readDefault.2) := by
  simp [readFrom, h]

/-- The variable is unset or cannot be read, so that an access has to fall back. -/
def FallsBack (s : Setting α) (env : Option String) : Prop :=
  ∀ t, env = some t → (s.read t).toOption = none

theorem fallsBack_none : s.FallsBack none := fun _ h => nomatch h

theorem fallsBack_some_iff {t : String} : s.FallsBack (some t) ↔ (s.read t).toOption = none :=
  ⟨fun h => h t rfl, fun h _ ht => Option.some.inj ht ▸ h⟩

theorem not_fallsBack_iff {env : Option String} :
    ¬ s.FallsBack env ↔ ∃ t w, env = some t ∧ s.read t = .ok w := by
  constructor
  · intro h
    obtain ⟨t, ht, hr⟩ : ∃ t, env = some t ∧ (s.read t).toOption ≠ none := by
      simpa [FallsBack] using h
    cases hrt : s.read t with
    | ok w => exact ⟨t, w, ht, hrt⟩
    | error e => simp [hrt, Except.toOption] at hr
  · rintro ⟨t, w, rfl, hw⟩ h
    have := (s.fallsBack_some_iff).mp h
    simp [hw, Except.toOption] at this

theorem readDefault_value_iff {v : α} : s.readDefault.1 = .value v ↔ s.read s.default = .ok v := by
  cases hd : s.read s.default with
  | ok d => simp [s.readDefault_of_ok hd]
  | error e => simp [s.readDefault_of_error hd]

theorem readDefault_halts_iff :
    (∃ m, s.readDefault.1 = .halt m) ↔ (s.read s.default).toOption = none := by
  cases hd : s.read s.default with
  | ok d => simp [s.readDefault_of_ok hd, Except.toOption]
  | error e => simp [s.readDefault_of_error hd, Except.toOption]

/-- Where an access has to fall back, it reads what the default gives. -/
theorem readFrom_of_fallsBack {env : Option String} (h : s.FallsBack env) :
    (s.readFrom env).1 = s.readDefault.1 := by
  cases env with
  | none => rfl
  | some t =>
      have hfb : (s.read t).toOption = none := (s.fallsBack_some_iff).mp h
      cases hr : s.read t with
      | ok v =>
          rw [hr] at hfb
          cases hfb
      | error e => rw [s.readFrom_of_error hr]

end Reading

/-! ## The cell -/

/-- The value a call stores when it is made on the unread setting: what an access reads, when
it does not stop the program, or the forced value. -/
def stores (s : Setting α) : SettingCall α → Option α
  | .get env => (s.readFrom env).1.value?
  | .set v => some v

/-- What a call stores depends on the variable, the default and the reading, not on the value
already held. -/
@[simp] theorem stores_with_value (s : Setting α) (o : Option α) :
    ({ s with value := o } : Setting α).stores = s.stores := rfl

theorem with_value_of_eq {s : Setting α} {o : Option α} (h : s.value = o) :
    ({ s with value := o } : Setting α) = s := by
  subst h
  rfl

theorem call_get_of_value {s : Setting α} {v : α} (h : s.value = some v) (env : Option String) :
    s.call (.get env) = (.value (some v), [], s) := by
  simp [call, get, h, Access.map]

theorem call_set_of_value {s : Setting α} {v : α} (h : s.value = some v) (x : α) :
    s.call (.set x) = (.halt s.alreadyInitializedMessage, [], s) := by
  simp [call, set, h, Access.map]

theorem call_get_of_unread {s : Setting α} (h : s.value = none) (env : Option String) :
    s.call (.get env) =
      ((s.readFrom env).1.map some, (s.readFrom env).2, { s with value := s.stores (.get env) }) := by
  rcases hr : s.readFrom env with ⟨r, logged⟩
  cases r with
  | value v => simp [call, get, stores, h, hr, Access.map, Access.value?]
  | halt msg =>
      -- the setting stays unread, as it was
      obtain ⟨name, default, read, value⟩ := s
      simp only at h
      subst h
      simp [call, get, stores, hr, Access.map, Access.value?]

theorem call_set_of_unread {s : Setting α} (h : s.value = none) (x : α) :
    s.call (.set x) = (.value none, [], { s with value := some x }) := by
  simp [call, set, h, Access.map]

/-- One call: a read setting stays as it is, an unread one takes what the call stores. -/
theorem call_state (s : Setting α) (c : SettingCall α) :
    (s.call c).2.2 = { s with value := s.value.or (s.stores c) } := by
  cases hv : s.value with
  | some v =>
      cases c with
      | get env => simp [call_get_of_value hv, with_value_of_eq hv]
      | set x => simp [call_set_of_value hv, with_value_of_eq hv]
  | none =>
      cases c with
      | get env => simp [call_get_of_unread hv]
      | set x => simp [call_set_of_unread hv, stores]

/-- A run of calls: the setting takes the value of the first call that completes, unless it held
one already. -/
theorem run_state (s : Setting α) (cs : List (SettingCall α)) :
    (s.run cs).2 = { s with value := s.value.or (cs.findSome? s.stores) } := by
  induction cs generalizing s with
  | nil => simp [run]
  | cons c cs ih =>
      have hstep := call_state s c
      rcases hcall : s.call c with ⟨r, logged, s'⟩
      rw [hcall] at hstep
      simp only at hstep
      simp only [run, hcall, ih, hstep, stores_with_value, List.findSome?_cons]
      cases s.value <;> cases s.stores c <;> rfl

/-- Reading a value on the first access: the variable's value when it is set and can be read,
otherwise the default's. -/
theorem readFrom_value_iff (s : Setting α) (env : Option String) (v : α) :
    (s.readFrom env).1 = .value v ↔
      (∃ t, env = some t ∧ s.read t = .ok v) ∨ (s.FallsBack env ∧ s.read s.default = .ok v) := by
  by_cases hfb : s.FallsBack env
  · -- the variable gives nothing: only the default counts
    have hvar : ¬ ∃ t, env = some t ∧ s.read t = .ok v := by
      rintro ⟨t, rfl, ht⟩
      have := (s.fallsBack_some_iff).mp hfb
      simp [ht, Except.toOption] at this
    rw [s.readFrom_of_fallsBack hfb, s.readDefault_value_iff]
    simp [hvar, hfb]
  · obtain ⟨t, w, rfl, hw⟩ := (s.not_fallsBack_iff).mp hfb
    rw [s.readFrom_of_ok hw]
    simp [hw, hfb]

/-- The first access stops the program exactly when it has to fall back and the default cannot
be read. -/
theorem readFrom_halts_iff (s : Setting α) (env : Option String) :
    (∃ m, (s.readFrom env).1 = .halt m) ↔ s.FallsBack env ∧ (s.read s.default).toOption = none := by
  by_cases hfb : s.FallsBack env
  · rw [s.readFrom_of_fallsBack hfb, s.readDefault_halts_iff]
    simp [hfb]
  · obtain ⟨t, w, rfl, hw⟩ := (s.not_fallsBack_iff).mp hfb
    rw [s.readFrom_of_ok hw]
    simp [hfb]

theorem map_some_eq_value_iff {r : Access α} {v : α} : r.map some = .value (some v) ↔ r = .value v := by
  cases r <;> simp [Access.map]

theorem map_some_halts_iff {r : Access α} : (∃ m, r.map some = .halt m) ↔ ∃ m, r = .halt m := by
  cases r <;> simp [Access.map]

/-- A setting is a write-once cell. After any calls on a fresh setting, it holds the value of
the first call that completed. Until one completes, an access reads the variable's value when it
is set and can be read and the default's otherwise, stops the program exactly when it has to fall
back and the default cannot be read, and warns when the variable is set but cannot be read. Once
one completed, every access gives its value, whatever the variable holds, and logs nothing.
Forcing a value succeeds exactly while no call has completed, and is refused afterwards with the
setting left as it was. -/
theorem setting_is_write_once (name default : String) (read : String → Except String α)
    (pre : List (SettingCall α)) :
    let p : Setting α := { name, default, read }
    let s := (p.run pre).2
    s = { p with value := pre.findSome? p.stores } ∧
      (pre.findSome? p.stores = none → ∀ env,
        (∀ v, (s.call (.get env)).1 = .value (some v) ↔
          (∃ t, env = some t ∧ read t = .ok v) ∨ (p.FallsBack env ∧ read default = .ok v)) ∧
        ((∃ m, (s.call (.get env)).1 = .halt m) ↔
          p.FallsBack env ∧ (read default).toOption = none) ∧
        ∀ t e, env = some t → read t = .error e → p.unreadableWarning t e ∈ (s.call (.get env)).2.1) ∧
      (∀ v, pre.findSome? p.stores = some v → ∀ env, s.call (.get env) = (.value (some v), [], s)) ∧
      ∀ x, s.call (.set x) =
        match pre.findSome? p.stores with
        | none => (.value none, [], { p with value := some x })
        | some _ => (.halt p.alreadyInitializedMessage, [], s) := by
  intro p s
  have hp : p.value = none := rfl
  have hs : s = { p with value := pre.findSome? p.stores } := by
    rw [show s = (p.run pre).2 from rfl, run_state, hp, Option.none_or]
  refine ⟨hs, fun hnone env => ?_, fun v hv env => ?_, fun x => ?_⟩
  · -- nothing completed: the setting is the fresh one
    have hunread : s.value = none := by rw [hs, hnone]
    have hread : s.readFrom env = p.readFrom env := by rw [hs]; rfl
    rw [call_get_of_unread hunread, hread]
    refine ⟨fun v => ?_, ?_, fun t e ht he => ?_⟩
    · rw [map_some_eq_value_iff]
      exact p.readFrom_value_iff env v
    · rw [map_some_halts_iff]
      exact p.readFrom_halts_iff env
    · subst ht
      rw [p.readFrom_of_error he]
      exact List.mem_cons_self
  · exact call_get_of_value (by rw [hs, hv]) env
  · cases hfirst : pre.findSome? p.stores with
    | none =>
        rw [call_set_of_unread (by rw [hs, hfirst]) x, hs]
    | some v =>
        have hmsg : s.alreadyInitializedMessage = p.alreadyInitializedMessage := by rw [hs]; rfl
        rw [call_set_of_value (by rw [hs, hfirst]) x, hmsg]

/-- A limit read from its default `3` keeps that value when the variable later reads `10`, and
can no longer be forced to `7`. -/
theorem limit_is_read_once :
    let p : Setting SettingValue := { name := "LIMIT", default := "3", read := SettingKind.uint32.read }
    let s := (p.run [.get none]).2
    s.call (.get (some "10")) = (.value (some (.int 3)), [], s) ∧
      s.call (.set (.int 7)) = (.halt p.alreadyInitializedMessage, [], s) := by
  intro p s
  have hfirst : [SettingCall.get none].findSome? p.stores = some (.int 3) := by decide
  obtain ⟨-, -, hlater, hset⟩ :=
    setting_is_write_once "LIMIT" "3" SettingKind.uint32.read [.get none]
  refine ⟨hlater _ hfirst _, ?_⟩
  rw [hset, hfirst]

end Setting

end Pddl
