import Pddl.Problem.Builder
import Pddl.Proofs.Except
/-!
# Problems built call by call

A problem is built by a sequence of calls of the builder, starting from the empty problem. Every
method of the builder reads the problem and makes all its checks before it changes anything
(`BuildM.SpecAt`). So a call the builder refuses leaves the problem as it found it, whatever the
problem (`BuildCall.run_refused`), and the next call goes on from there (`perform`).

Main statement: every problem built this way is `WellBuilt` (`wellBuilt_build`). Its objects have
distinct names and the index gives each name the position of its object; equality stays the
first predicate, and predicate and function names are distinct; the initial state holds positive
ground literals, no two of which the planner takes for the same, and at most one value for each
fluent; and every condition is closed by its parameters, so that `check` accepts the problem.
Beside it, what a run keeps of its history: objects are only ever appended
(`objects_prefix_build`), an accepted declaration of an object is what the index finds at the end
of the run (`object_build_of_accepted`), and the initial value of a ground fluent is the one of
the last call setting it (`value_build`).
-/

namespace Pddl

/-- A call of the problem builder, with its arguments. -/
inductive BuildCall where
  | addType (name : String) (parent : Option String)
  | addObject (name type : String)
  | addPredicate (name : String) (params : List Param)
  | addFunction (name : String) (params : List Param)
  | addOperator (op : Operator)
  | addAxiom (ax : Axiom)
  | addInit (l : Literal)
  | setInitValue (f : FluentApp) (v : Int)
  | addGoal (g : Condition)

/-- The method of the builder a call runs. -/
def BuildCall.run : BuildCall → BuildM Unit
  | .addType n p => Problem.addType n p
  | .addObject n t => Problem.addObject n t
  | .addPredicate n ps => Problem.addPredicate n ps
  | .addFunction n ps => Problem.addFunction n ps
  | .addOperator op => Problem.addOperator op
  | .addAxiom ax => Problem.addAxiom ax
  | .addInit l => Problem.addInit l
  | .setInitValue f v => Problem.setInitValue f v
  | .addGoal g => Problem.addGoal g

/-! ## Methods that check before they change -/

namespace BuildM

variable {α β : Type}

/-- What a method does from the problem `pb`: when it accepts, with answer `a`, the problem it
leaves is related to `pb` by `P`; when it refuses, it leaves `pb` as it was. -/
def SpecAt (P : Problem → α → Problem → Prop) (x : BuildM α) (pb : Problem) : Prop :=
  match x.run pb with
  | .ok a pb' => P pb a pb'
  | .error _ pb' => pb' = pb

/-- What a method does from every problem. -/
def Spec (P : Problem → α → Problem → Prop) (x : BuildM α) : Prop := ∀ pb, SpecAt P x pb

section SpecAt

variable {P : Problem → β → Problem → Prop} {pb : Problem}

theorem SpecAt.pure {b : β} (h : P pb b pb) : SpecAt P (Pure.pure b) pb := h

theorem SpecAt.throw {e : ModelError} : SpecAt P (MonadExcept.throw e) pb := rfl

theorem SpecAt.throw_bind {e : ModelError} {f : α → BuildM β} :
    SpecAt P (MonadExcept.throw e >>= f) pb := rfl

/-- A change of the problem, which never refuses. -/
theorem SpecAt.update {P : Problem → Unit → Problem → Prop} {f : Problem → Problem}
    (h : P pb () (f pb)) : SpecAt P (modify f) pb := h

/-- Two changes in a row. -/
theorem SpecAt.update_update {P : Problem → Unit → Problem → Prop} {f g : Problem → Problem}
    (h : P pb () (g (f pb))) : SpecAt P (modify f >>= fun _ => modify g) pb := h

theorem SpecAt.get_bind {f : Problem → BuildM β} (h : SpecAt P (f pb) pb) :
    SpecAt P (get >>= f) pb := h

/-- A check that fails refuses in place; one that passes hands over to the rest of the method,
on the same problem. -/
theorem SpecAt.check_bind {c : Except ModelError α} {f : α → BuildM β}
    (h : ∀ a, c = .ok a → SpecAt P (f a) pb) : SpecAt P (liftExcept c >>= f) pb := by
  cases c with
  | error e => rfl
  | ok a => exact h a rfl

end SpecAt

theorem Spec.ok {P : Problem → α → Problem → Prop} {x : BuildM α} (h : Spec P x)
    {pb pb' : Problem} {a : α} (hrun : x.run pb = .ok a pb') : P pb a pb' := by
  have hpb := h pb
  unfold SpecAt at hpb
  rw [hrun] at hpb
  exact hpb

/-- A refusal leaves the problem as the method found it. -/
theorem Spec.error {P : Problem → α → Problem → Prop} {x : BuildM α} (h : Spec P x)
    {pb pb' : Problem} {e : ModelError} (hrun : x.run pb = .error e pb') : pb' = pb := by
  have hpb := h pb
  unfold SpecAt at hpb
  rw [hrun] at hpb
  exact hpb

theorem run_get_bind {f : Problem → BuildM β} {pb : Problem} :
    (get >>= f).run pb = (f pb).run pb := rfl

theorem run_check_bind {c : Except ModelError α} {f : α → BuildM β} {a : α} (hc : c = .ok a)
    {pb : Problem} : (liftExcept c >>= f).run pb = (f a).run pb := by
  subst hc
  rfl

end BuildM

/-! ## What each method does -/

namespace Problem

open BuildM

theorem checkType_eq_ok {pb : Problem} {t : String} :
    pb.checkType t = .ok () ↔ pb.types.contains t = true := by
  unfold checkType
  split <;> simp_all [throw, throwThe, MonadExceptOf.throw]

theorem addType_spec (n : String) (p : Option String) :
    Spec (fun pb _ pb' => pb' = { pb with types := pb.types.addType n p }) (addType n p) :=
  fun _ => SpecAt.update rfl

/-- A new object is indexed at its position and appended; an object of the name with the same
type leaves the problem as it is. -/
theorem addObject_spec (n t : String) :
    Spec (fun pb _ pb' => pb.types.contains t = true ∧
      ((∃ o, pb.indexedObject? n = some o ∧ o.type = t ∧ pb' = pb) ∨
       (pb.indexedObject? n = none ∧
        pb' = { pb with
          objectIndex := pb.objectIndex ++ [(n, pb.objects.length)]
          objects := pb.objects ++ [⟨n, t⟩] }))) (addObject n t) := by
  intro pb
  unfold addObject
  refine SpecAt.get_bind (SpecAt.check_bind fun _ hc => ?_)
  have ht := checkType_eq_ok.mp hc
  split
  · rename_i o ho
    split
    · exact SpecAt.pure ⟨ht, .inl ⟨o, ho, ‹_›, rfl⟩⟩
    · exact SpecAt.throw
  · exact SpecAt.update_update ⟨ht, .inr ⟨‹_›, rfl⟩⟩

theorem addPredicate_spec (n : String) (ps : List Param) :
    Spec (fun pb _ pb' => pb.checkParams ps = .ok () ∧ pb.findPredicate? n = none ∧
      pb' = { pb with predicates := pb.predicates ++ [⟨n, ps⟩] }) (addPredicate n ps) := by
  intro pb
  unfold addPredicate
  refine SpecAt.get_bind (SpecAt.check_bind fun _ hc => ?_)
  dsimp only
  split
  · exact SpecAt.throw_bind
  · exact SpecAt.update ⟨hc, Option.not_isSome_iff_eq_none.mp ‹_›, rfl⟩

theorem addFunction_spec (n : String) (ps : List Param) :
    Spec (fun pb _ pb' => pb.checkParams ps = .ok () ∧ pb.findFunction? n = none ∧
      pb' = { pb with functions := pb.functions ++ [⟨n, ps⟩] }) (addFunction n ps) := by
  intro pb
  unfold addFunction
  refine SpecAt.get_bind (SpecAt.check_bind fun _ hc => ?_)
  dsimp only
  split
  · exact SpecAt.throw_bind
  · exact SpecAt.update ⟨hc, Option.not_isSome_iff_eq_none.mp ‹_›, rfl⟩

theorem addOperator_spec (op : Operator) :
    Spec (fun pb _ pb' => pb.checkParams op.params = .ok () ∧
      checkBound op.name op.params op.pre = .ok () ∧ checkBound op.name op.params op.eff = .ok () ∧
      pb' = { pb with operators := pb.operators ++ [op] }) (addOperator op) := by
  intro pb
  unfold addOperator
  refine SpecAt.get_bind (SpecAt.check_bind fun _ hc => SpecAt.check_bind fun _ hpre =>
    SpecAt.check_bind fun _ heff => ?_)
  exact SpecAt.update ⟨hc, hpre, heff, rfl⟩

theorem addAxiom_spec (ax : Axiom) :
    Spec (fun pb _ pb' => checkBound ax.pred.name ax.params ax.cond = .ok () ∧
      pb' = { pb with axioms := pb.axioms ++ [ax] }) (addAxiom ax) := by
  intro pb
  unfold addAxiom
  exact SpecAt.check_bind fun _ hc => SpecAt.update ⟨hc, rfl⟩

/-- A positive ground literal is appended, unless the initial state holds the same literal. -/
theorem addInit_spec (l : Literal) :
    Spec (fun pb _ pb' => l.isGround = true ∧ l.negated = false ∧
      ((pb.init.any (·.sameAs l) = true ∧ pb' = pb) ∨
       (pb.init.any (·.sameAs l) = false ∧ pb' = { pb with init := pb.init ++ [l] }))) (addInit l) := by
  intro pb
  unfold addInit
  split
  · exact SpecAt.throw_bind
  · rename_i hl
    have hgn : l.isGround = true ∧ l.negated = false := by simpa using hl
    dsimp only
    refine SpecAt.get_bind ?_
    split
    · exact SpecAt.pure ⟨hgn.1, hgn.2, .inl ⟨‹_›, rfl⟩⟩
    · rename_i hany
      exact SpecAt.update ⟨hgn.1, hgn.2, .inr ⟨Bool.eq_false_iff.mpr hany, rfl⟩⟩

/-- The value of the first entry of the same fluent is replaced, or a new entry is appended. -/
theorem setInitValue_spec (f : FluentApp) (v : Int) :
    Spec (fun pb _ pb' => f.isGround = true ∧
      ((∃ vs, setFirstValue f v pb.initValues = some vs ∧ pb' = { pb with initValues := vs }) ∨
       (setFirstValue f v pb.initValues = none ∧
          pb' = { pb with initValues := pb.initValues ++ [(f, v)] }))) (setInitValue f v) := by
  intro pb
  unfold setInitValue
  split
  · exact SpecAt.throw_bind
  · rename_i hf
    have hg : f.isGround = true := by simpa using hf
    dsimp only
    refine SpecAt.get_bind ?_
    split
    · exact SpecAt.update ⟨hg, .inl ⟨_, ‹_›, rfl⟩⟩
    · exact SpecAt.update ⟨hg, .inr ⟨‹_›, rfl⟩⟩

theorem addGoal_spec (g : Condition) :
    Spec (fun pb _ pb' => checkBound "goal" [] g = .ok () ∧
      pb' = { pb with goals := pb.goals ++ [g] }) (addGoal g) := by
  intro pb
  unfold addGoal
  exact SpecAt.check_bind fun _ hc => SpecAt.update ⟨hc, rfl⟩

/-- A value is refused only to a fluent that is not ground. -/
theorem setInitValue_refused {f : FluentApp} {v : Int} {pb pb' : Problem} {e : ModelError}
    (h : (setInitValue f v).run pb = .error e pb') : f.isGround = false := by
  unfold setInitValue at h
  split at h
  · rename_i hf
    simpa using hf
  · dsimp only at h
    rw [run_get_bind] at h
    split at h <;> cases h

end Problem

/-- Every method refuses in place: a refused call leaves the problem, whatever it is, as it was. -/
theorem BuildCall.run_refused (c : BuildCall) {pb pb' : Problem} {e : ModelError}
    (h : c.run.run pb = .error e pb') : pb' = pb := by
  cases c with
  | addType n p => exact (Problem.addType_spec n p).error h
  | addObject n t => exact (Problem.addObject_spec n t).error h
  | addPredicate n ps => exact (Problem.addPredicate_spec n ps).error h
  | addFunction n ps => exact (Problem.addFunction_spec n ps).error h
  | addOperator op => exact (Problem.addOperator_spec op).error h
  | addAxiom ax => exact (Problem.addAxiom_spec ax).error h
  | addInit l => exact (Problem.addInit_spec l).error h
  | setInitValue f v => exact (Problem.setInitValue_spec f v).error h
  | addGoal g => exact (Problem.addGoal_spec g).error h

namespace Problem

/-- The problem after a call: the one the method leaves, whether it accepts or refuses. -/
def perform (pb : Problem) (c : BuildCall) : Problem :=
  match c.run.run pb with
  | .ok _ pb' => pb'
  | .error _ pb' => pb'

/-- The problem built by a sequence of calls from the empty problem. -/
def build (cs : List BuildCall) : Problem := cs.foldl perform {}

@[simp] theorem build_nil : build [] = {} := rfl

@[simp] theorem build_append_singleton (cs : List BuildCall) (c : BuildCall) :
    build (cs ++ [c]) = (build cs).perform c := by
  simp [build]

theorem perform_of_run_ok {pb pb' : Problem} {c : BuildCall} {u : Unit}
    (h : c.run.run pb = .ok u pb') : pb.perform c = pb' := by
  simp [perform, h]

theorem perform_of_run_error {pb pb' : Problem} {c : BuildCall} {e : ModelError}
    (h : c.run.run pb = .error e pb') : pb.perform c = pb := by
  simp only [perform, h]
  exact c.run_refused h

/-! ## Lookups -/

theorem findObject?_eq_none {pb : Problem} {n : String} :
    pb.findObject? n = none ↔ n ∉ pb.objects.map (·.name) := by
  simp [findObject?]

theorem findObject?_eq_some {pb : Problem} {n : String} {o : Object}
    (h : pb.findObject? n = some o) : o ∈ pb.objects ∧ o.name = n :=
  ⟨List.mem_of_find?_eq_some h, by simpa using List.find?_some h⟩

/-- With distinct names, the lookup of an object's name finds that object. -/
theorem findObject?_of_mem {pb : Problem} (hnd : (pb.objects.map (·.name)).Nodup) {o : Object}
    (ho : o ∈ pb.objects) : pb.findObject? o.name = some o := by
  obtain ⟨as, bs, hsplit⟩ := List.append_of_mem ho
  have hbefore : ∀ a ∈ as, a.name ≠ o.name := by
    rw [hsplit, List.map_append, List.map_cons, List.nodup_append] at hnd
    intro a ha heq
    exact hnd.2.2 a.name (List.mem_map_of_mem ha) o.name (by simp) heq
  unfold findObject?
  rw [List.find?_eq_some_iff_append]
  exact ⟨by simp, as, bs, hsplit, fun a ha => by simpa using hbefore a ha⟩

theorem findPredicate?_eq_none {pb : Problem} {n : String} :
    pb.findPredicate? n = none ↔ n ∉ pb.predicates.map (·.name) := by
  simp [findPredicate?]

theorem findFunction?_eq_none {pb : Problem} {n : String} :
    pb.findFunction? n = none ↔ n ∉ pb.functions.map (·.name) := by
  simp [findFunction?]

theorem getElem?_append_singleton {α : Type} (l : List α) (a : α) (i : Nat) :
    (l ++ [a])[i]? = if i < l.length then l[i]? else if i = l.length then some a else none := by
  rw [List.getElem?_append]
  split
  · rfl
  · rw [List.getElem?_singleton]
    split <;> split <;> first | rfl | omega

/-- The index of objects in declaration order, each name with its object's position. -/
def indexOf (objs : List Object) : List (String × Nat) := objs.mapIdx fun i o => (o.name, i)

@[simp] theorem indexOf_append_singleton (objs : List Object) (o : Object) :
    indexOf (objs ++ [o]) = indexOf objs ++ [(o.name, objs.length)] := by
  simp [indexOf, List.mapIdx_append]

/-- With distinct names, the index gives a name the position of the object of that name. -/
theorem lookup_indexOf {objs : List Object} (hnd : (objs.map (·.name)).Nodup) {n : String} :
    ∀ {i : Nat}, (indexOf objs).lookup n = some i ↔ ∃ o, objs[i]? = some o ∧ o.name = n := by
  induction objs using List.reverseRecOn with
  | nil => simp [indexOf]
  | append_singleton objs o ih =>
      intro i
      rw [List.map_append, List.map_singleton] at hnd
      have hnd' := (List.nodup_append.mp hnd).1
      have hfresh : o.name ∉ objs.map (·.name) := fun hmem =>
        (List.nodup_append.mp hnd).2.2 o.name hmem o.name (List.mem_singleton_self _) rfl
      -- an earlier object never has the last object's name
      have hearlier : ∀ (j : Nat) (o' : Object), objs[j]? = some o' → o'.name ≠ o.name :=
        fun j o' hj hname =>
        hfresh (hname ▸ List.mem_map_of_mem (List.mem_of_getElem? hj))
      rw [indexOf_append_singleton, List.lookup_append, getElem?_append_singleton]
      by_cases hn : o.name = n
      · subst hn
        have hnone : (indexOf objs).lookup o.name = none := by
          cases hl : (indexOf objs).lookup o.name with
          | none => rfl
          | some j =>
              obtain ⟨o', ho', hname⟩ := (ih hnd').mp hl
              exact absurd hname (hearlier j o' ho')
        simp only [hnone, Option.none_or, List.lookup_cons, beq_self_eq_true, Option.some.injEq]
        constructor
        · rintro rfl
          exact ⟨o, by simp, rfl⟩
        · rintro ⟨o', ho', hname⟩
          split at ho'
          · exact absurd hname (hearlier i o' ho')
          · split at ho'
            · omega
            · cases ho'
      · have hlast : [(o.name, objs.length)].lookup n = none := by
          simp only [List.lookup_cons, List.lookup_nil, beq_eq_false_iff_ne.mpr (Ne.symm hn)]
        rw [hlast, Option.or_none, ih hnd']
        constructor
        · rintro ⟨o', ho', hname⟩
          have hi : i < objs.length := (List.getElem?_eq_some_iff.mp ho').1
          exact ⟨o', by rw [if_pos hi]; exact ho', hname⟩
        · rintro ⟨o', ho', hname⟩
          split at ho'
          · exact ⟨o', ho', hname⟩
          · split at ho'
            · cases ho'
              exact absurd hname hn
            · cases ho'

end Problem

/-! ## The planner's comparison of arguments and fluents -/

namespace Argument

theorem sameAs_comm (a b : Argument) : a.sameAs b = b.sameAs a := by
  cases a <;> cases b <;> simp [sameAs, eq_comm]

theorem sameAs_trans {a b c : Argument} (hab : a.sameAs b = true) (hbc : b.sameAs c = true) :
    a.sameAs c = true := by
  cases a <;> cases b <;> cases c <;> simp_all [sameAs]

theorem sameList_comm : ∀ as bs : List Argument, sameList as bs = sameList bs as
  | [], [] => rfl
  | [], _ :: _ => rfl
  | _ :: _, [] => rfl
  | a :: as, b :: bs => by simp only [sameList, sameAs_comm a b, sameList_comm as bs]

theorem sameList_trans {as bs cs : List Argument} (hab : sameList as bs = true)
    (hbc : sameList bs cs = true) : sameList as cs = true := by
  induction as generalizing bs cs with
  | nil => cases bs <;> cases cs <;> simp_all [sameList]
  | cons a as ih =>
      cases bs <;> cases cs <;> simp only [sameList, Bool.and_eq_true, Bool.false_eq_true] at hab hbc ⊢
      exact ⟨sameAs_trans hab.1 hbc.1, ih hab.2 hbc.2⟩

/-- Arguments the same as objects are objects. -/
theorem all_isConst_of_sameList {as bs : List Argument} (h : sameList as bs = true)
    (hbs : bs.all isConst = true) : as.all isConst = true := by
  induction as generalizing bs with
  | nil => rfl
  | cons a as ih =>
      cases bs with
      | nil => simp [sameList] at h
      | cons b bs =>
          simp only [sameList, Bool.and_eq_true] at h
          simp only [List.all_cons, Bool.and_eq_true] at hbs ⊢
          refine ⟨?_, ih h.2 hbs.2⟩
          cases a <;> cases b <;> simp_all [sameAs, isConst]

end Argument

namespace FluentApp

theorem sameAs_comm (f g : FluentApp) : f.sameAs g = g.sameAs f := by
  simp only [sameAs, Argument.sameList_comm f.args]
  congr 1
  simp [eq_comm]

theorem sameAs_trans {f g h : FluentApp} (hfg : f.sameAs g = true) (hgh : g.sameAs h = true) :
    f.sameAs h = true := by
  simp only [sameAs, Bool.and_eq_true, beq_iff_eq] at hfg hgh ⊢
  exact ⟨hfg.1.trans hgh.1, Argument.sameList_trans hfg.2 hgh.2⟩

/-- A fluent the same as a ground one is ground. -/
theorem isGround_of_sameAs {f g : FluentApp} (h : g.sameAs f = true) (hf : f.isGround = true) :
    g.isGround = true := by
  simp only [sameAs, Bool.and_eq_true] at h
  exact Argument.all_isConst_of_sameList h.2 hf

/-- Two fluents the same as a third are the same. -/
theorem sameAs_of_sameAs {f g h : FluentApp} (hf : f.sameAs h = true) (hg : g.sameAs h = true) :
    f.sameAs g = true :=
  sameAs_trans hf (by rw [sameAs_comm]; exact hg)

end FluentApp

/-! ## Replacing a fluent's value -/

namespace Problem

section Values

variable {f g : FluentApp} {v : Int}

/-- The entries of a fluent the same as `f`, with their values. -/
def valueOf (f : FluentApp) (es : List (FluentApp × Int)) : Option Int :=
  (es.find? (·.1.sameAs f)).map (·.2)

theorem setFirstValue_keys : ∀ {es es' : List (FluentApp × Int)},
    setFirstValue g v es = some es' → es'.map (·.1) = es.map (·.1)
  | [], _, h => by cases h
  | e :: es, es', h => by
      unfold setFirstValue at h
      split at h
      · cases h
        rfl
      · obtain ⟨es'', hes'', rfl⟩ := Option.map_eq_some_iff.mp h
        simp [setFirstValue_keys hes'']

theorem setFirstValue_eq_none : ∀ {es : List (FluentApp × Int)},
    setFirstValue g v es = none ↔ ∀ e ∈ es, e.1.sameAs g = false
  | [] => by simp [setFirstValue]
  | e :: es => by
      unfold setFirstValue
      split
      · rename_i he
        simp [he]
      · rename_i he
        simp [Option.map_eq_none_iff, setFirstValue_eq_none, Bool.eq_false_iff.mpr he]

/-- Replacing the value of `g` gives the new value to every fluent the same as `g` and keeps the
value of every other one. -/
theorem valueOf_setFirstValue (f : FluentApp) : ∀ {es es' : List (FluentApp × Int)},
    setFirstValue g v es = some es' →
      valueOf f es' = if g.sameAs f then some v else valueOf f es
  | [], _, h => by cases h
  | e :: es, es', h => by
      unfold setFirstValue at h
      split at h
      · -- the first entry is `g`'s: it takes the new value
        rename_i heg
        cases h
        by_cases hgf : g.sameAs f = true
        · have hef : e.1.sameAs f = true := FluentApp.sameAs_trans heg hgf
          simp [valueOf, hef, hgf]
        · have hef : e.1.sameAs f = false := Bool.eq_false_iff.mpr fun hef =>
            hgf (FluentApp.sameAs_trans (by rw [FluentApp.sameAs_comm]; exact heg) hef)
          simp [valueOf, hef, hgf]
      · rename_i heg
        obtain ⟨es'', hes'', rfl⟩ := Option.map_eq_some_iff.mp h
        have ih := valueOf_setFirstValue f hes''
        by_cases hef : e.1.sameAs f = true
        · -- the entry is `f`'s, so not `g`'s: `g` is not the same as `f`
          have hgf : g.sameAs f = false := Bool.eq_false_iff.mpr fun hgf =>
            heg (FluentApp.sameAs_of_sameAs hef hgf)
          simp [valueOf, hef, hgf]
        · simp only [valueOf, List.find?_cons, Bool.eq_false_iff.mpr hef] at ih ⊢
          exact ih

/-- Appending the value of a fluent no entry has gives the new value to every fluent the same as
it and keeps the value of every other one. -/
theorem valueOf_append_fresh {es : List (FluentApp × Int)} (hs : setFirstValue g v es = none)
    (f : FluentApp) : valueOf f (es ++ [(g, v)]) = if g.sameAs f then some v else valueOf f es := by
  have hfresh := setFirstValue_eq_none.mp hs
  unfold valueOf
  rw [List.find?_append]
  by_cases hgf : g.sameAs f = true
  · -- no entry is `f`'s, since it would be `g`'s
    have hnone : es.find? (·.1.sameAs f) = none := List.find?_eq_none.mpr fun e he hef => by
      have hfr := hfresh e he
      rw [FluentApp.sameAs_of_sameAs hef hgf] at hfr
      cases hfr
    simp [hnone, hgf]
  · simp [Bool.eq_false_iff.mpr hgf]

end Values

end Problem

namespace TypeHierarchy

theorem contains_iff_mem_names {h : TypeHierarchy} {t : String} :
    h.contains t = true ↔ t ∈ h.names := by
  simp [contains, names]

/-- Declaring a type keeps every type declared before. -/
theorem contains_addType {h : TypeHierarchy} {t : String} (ht : h.contains t = true)
    (n : String) (p : Option String) : (h.addType n p).contains t = true := by
  rw [contains_iff_mem_names] at ht ⊢
  unfold addType
  split
  · exact ht
  · -- the parent may be declared first; then the type gains a parent or is appended
    dsimp only
    have hparent : t ∈ (if h.contains (p.getD topType) = true then h
        else ⟨h.entries ++ [(p.getD topType, [topType])]⟩).names := by
      split
      · exact ht
      · simp_all [names]
    generalize (if h.contains (p.getD topType) = true then h
        else ⟨h.entries ++ [(p.getD topType, [topType])]⟩) = q at hparent ⊢
    split
    · simpa [names, Function.comp_def, apply_ite Prod.fst] using hparent
    · simp_all [names]

end TypeHierarchy

/-- A list no two elements of which are related stays so when an element related to none of them
is appended. -/
theorem pairwise_append_singleton {α : Type} {R : α → α → Prop} {l : List α} {x : α}
    (hl : l.Pairwise R) (hx : ∀ a ∈ l, R a x) : (l ++ [x]).Pairwise R :=
  List.pairwise_append.mpr ⟨hl, List.pairwise_singleton R x, fun a ha b hb => by
    rw [List.mem_singleton] at hb
    exact hb ▸ hx a ha⟩

/-! ## The invariant of built problems -/

/-- What every problem built from the empty one by builder calls satisfies. -/
structure Problem.WellBuilt (pb : Problem) : Prop where
  objects_nodup : (pb.objects.map (·.name)).Nodup
  objects_typed : ∀ o ∈ pb.objects, pb.types.contains o.type = true
  /-- The index holds each object's name with its position, in declaration order. -/
  index_eq : pb.objectIndex = Problem.indexOf pb.objects
  predicates_nodup : (pb.predicates.map (·.name)).Nodup
  /-- Equality is built in, the first of the predicates. -/
  equality_first : pb.predicates.head? = some Predicate.equality
  functions_nodup : (pb.functions.map (·.name)).Nodup
  /-- No two initial atoms are the same for the planner. -/
  init_distinct : pb.init.Pairwise fun l l' => l.sameAs l' = false
  init_ground : ∀ l ∈ pb.init, l.isGround = true ∧ l.negated = false
  /-- No two fluents with an initial value are the same for the planner. -/
  initValues_distinct : (pb.initValues.map (·.1)).Pairwise fun f g => f.sameAs g = false
  initValues_ground : ∀ f ∈ pb.initValues.map (·.1), f.isGround = true
  operators_bound : ∀ op ∈ pb.operators,
    checkBound op.name op.params op.pre = .ok () ∧ checkBound op.name op.params op.eff = .ok ()
  axioms_bound : ∀ ax ∈ pb.axioms, checkBound ax.pred.name ax.params ax.cond = .ok ()
  goals_bound : ∀ g ∈ pb.goals, checkBound "goal" [] g = .ok ()

namespace Problem

theorem wellBuilt_empty : ({} : Problem).WellBuilt where
  objects_nodup := by simp
  objects_typed := by simp
  index_eq := rfl
  predicates_nodup := by simp
  equality_first := rfl
  functions_nodup := by simp
  init_distinct := by simp
  init_ground := by simp
  initValues_distinct := by simp
  initValues_ground := by simp
  operators_bound := by simp
  axioms_bound := by simp
  goals_bound := by simp

section WellBuilt

variable {pb : Problem} (h : pb.WellBuilt)
include h

/-- The index gives a name the position of the object of that name. -/
theorem WellBuilt.lookup_index {n : String} {i : Nat} :
    pb.objectIndex.lookup n = some i ↔ ∃ o, pb.objects[i]? = some o ∧ o.name = n := by
  rw [h.index_eq]
  exact lookup_indexOf h.objects_nodup

/-- The object the index finds for a name is the object of that name. -/
theorem WellBuilt.indexedObject?_eq_some {n : String} {o : Object} :
    pb.indexedObject? n = some o ↔ o ∈ pb.objects ∧ o.name = n := by
  unfold indexedObject?
  rw [Option.bind_eq_some_iff]
  constructor
  · rintro ⟨i, hi, ho⟩
    obtain ⟨o', ho', hname⟩ := h.lookup_index.mp hi
    rw [ho] at ho'
    cases ho'
    exact ⟨List.mem_of_getElem? ho, hname⟩
  · rintro ⟨ho, rfl⟩
    obtain ⟨i, hi⟩ := List.mem_iff_getElem?.mp ho
    exact ⟨i, h.lookup_index.mpr ⟨o, hi, rfl⟩, hi⟩

theorem WellBuilt.findObject?_eq_some {n : String} {o : Object} :
    pb.findObject? n = some o ↔ o ∈ pb.objects ∧ o.name = n :=
  ⟨Problem.findObject?_eq_some, fun ⟨ho, hn⟩ => hn ▸ findObject?_of_mem h.objects_nodup ho⟩

/-- The index and the search of the objects by name find the same object. -/
theorem WellBuilt.indexedObject?_eq_findObject? (n : String) :
    pb.indexedObject? n = pb.findObject? n :=
  Option.ext fun _ => h.indexedObject?_eq_some.trans h.findObject?_eq_some.symm

theorem WellBuilt.indexedObject?_eq_none {n : String} :
    pb.indexedObject? n = none ↔ n ∉ pb.objects.map (·.name) := by
  rw [h.indexedObject?_eq_findObject?, findObject?_eq_none]

/-- The constant of a name is the object of that name. -/
theorem WellBuilt.object_eq_ok {n : String} {o : Object} :
    pb.object n = .ok (.const o) ↔ o ∈ pb.objects ∧ o.name = n := by
  rw [← h.indexedObject?_eq_some]
  unfold object
  cases pb.indexedObject? n with
  | some o' =>
      constructor
      · intro heq
        cases heq
        rfl
      · intro heq
        cases heq
        rfl
  | none => constructor <;> intro heq <;> cases heq

theorem WellBuilt.findPredicate?_equality :
    pb.findPredicate? equalityName = some Predicate.equality := by
  obtain ⟨rest, hrest⟩ : ∃ rest, pb.predicates = Predicate.equality :: rest :=
    List.head?_eq_some_iff.mp h.equality_first
  simp [findPredicate?, hrest, Predicate.equality]

/-- Declaring an object again with its own type changes nothing. -/
theorem WellBuilt.addObject_again {o : Object} (ho : o ∈ pb.objects) :
    (addObject o.name o.type).run pb = .ok () pb := by
  have hc : pb.checkType o.type = .ok () := checkType_eq_ok.mpr (h.objects_typed o ho)
  have hi : pb.indexedObject? o.name = some o := h.indexedObject?_eq_some.mpr ⟨ho, rfl⟩
  unfold addObject
  rw [BuildM.run_get_bind, BuildM.run_check_bind hc]
  simp only [hi, if_true]
  rfl

/-- `check` accepts every problem whose conditions are closed by their parameters. -/
theorem WellBuilt.check_eq_ok : pb.check = .ok () := by
  have hops : pb.operators.forM (fun op => do
      checkBound op.name op.params op.pre
      checkBound op.name op.params op.eff) = .ok () := by
    rw [forM_eq_ok]
    intro op hop
    obtain ⟨hpre, heff⟩ := h.operators_bound op hop
    simp [hpre, heff]
  have haxs : pb.axioms.forM (fun ax => checkBound ax.pred.name ax.params ax.cond) = .ok () :=
    forM_eq_ok.mpr h.axioms_bound
  have hgoals : pb.goals.forM (fun g => checkBound "goal" [] g) = .ok () :=
    forM_eq_ok.mpr h.goals_bound
  unfold check
  simp only [except_bind_eq_ok]
  exact ⟨(), hops, (), haxs, hgoals⟩

end WellBuilt

/-- Every call the builder accepts keeps the invariant. -/
theorem WellBuilt.accept {pb pb' : Problem} (h : pb.WellBuilt) {c : BuildCall} {u : Unit}
    (hrun : c.run.run pb = .ok u pb') : pb'.WellBuilt := by
  -- each call appends to the one list it is about, after checking what the invariant asks of the
  -- new element
  cases c with
  | addType n p =>
      obtain rfl := (addType_spec n p).ok hrun
      exact { h with
        objects_typed := fun o ho => TypeHierarchy.contains_addType (h.objects_typed o ho) n p }
  | addObject n t =>
      obtain ⟨htype, ⟨o, -, -, rfl⟩ | ⟨hnew, rfl⟩⟩ := (addObject_spec n t).ok hrun
      · exact h
      · have hn : n ∉ pb.objects.map (·.name) := h.indexedObject?_eq_none.mp hnew
        refine { h with objects_nodup := ?_, objects_typed := ?_, index_eq := ?_ }
        · rw [List.map_append, List.map_singleton, ← List.concat_eq_append]
          exact h.objects_nodup.concat hn
        · exact List.forall_mem_append.mpr ⟨h.objects_typed, List.forall_mem_singleton.mpr htype⟩
        · show pb.objectIndex ++ [(n, pb.objects.length)] = indexOf (pb.objects ++ [⟨n, t⟩])
          rw [indexOf_append_singleton, h.index_eq]
  | addPredicate n ps =>
      obtain ⟨-, hnew, rfl⟩ := (addPredicate_spec n ps).ok hrun
      refine { h with predicates_nodup := ?_, equality_first := ?_ }
      · rw [List.map_append, List.map_singleton, ← List.concat_eq_append]
        exact h.predicates_nodup.concat (findPredicate?_eq_none.mp hnew)
      · rw [List.head?_append, h.equality_first]
        rfl
  | addFunction n ps =>
      obtain ⟨-, hnew, rfl⟩ := (addFunction_spec n ps).ok hrun
      refine { h with functions_nodup := ?_ }
      rw [List.map_append, List.map_singleton, ← List.concat_eq_append]
      exact h.functions_nodup.concat (findFunction?_eq_none.mp hnew)
  | addOperator op =>
      obtain ⟨-, hpre, heff, rfl⟩ := (addOperator_spec op).ok hrun
      exact { h with operators_bound :=
        List.forall_mem_append.mpr ⟨h.operators_bound, List.forall_mem_singleton.mpr ⟨hpre, heff⟩⟩ }
  | addAxiom ax =>
      obtain ⟨hcond, rfl⟩ := (addAxiom_spec ax).ok hrun
      exact { h with axioms_bound :=
        List.forall_mem_append.mpr ⟨h.axioms_bound, List.forall_mem_singleton.mpr hcond⟩ }
  | addInit l =>
      obtain ⟨hg, hpos, ⟨-, rfl⟩ | ⟨hnew, rfl⟩⟩ := (addInit_spec l).ok hrun
      · exact h
      · -- the new literal is the same as none of the initial atoms
        have hfresh : ∀ l' ∈ pb.init, l'.sameAs l = false := fun l' hl' =>
          Bool.eq_false_iff.mpr (List.any_eq_false.mp hnew l' hl')
        exact { h with
          init_distinct := pairwise_append_singleton h.init_distinct hfresh
          init_ground :=
            List.forall_mem_append.mpr ⟨h.init_ground, List.forall_mem_singleton.mpr ⟨hg, hpos⟩⟩ }
  | setInitValue f v =>
      obtain ⟨hg, ⟨vs, hvs, rfl⟩ | ⟨hnone, rfl⟩⟩ := (setInitValue_spec f v).ok hrun
      · -- a value is replaced in place: the fluents stay as they were
        have hkeys := setFirstValue_keys hvs
        exact { h with
          initValues_distinct := hkeys ▸ h.initValues_distinct
          initValues_ground := hkeys ▸ h.initValues_ground }
      · have hfresh : ∀ g ∈ pb.initValues.map (·.1), g.sameAs f = false := by
          intro g hg'
          obtain ⟨e, he, rfl⟩ := List.mem_map.mp hg'
          exact setFirstValue_eq_none.mp hnone e he
        refine { h with initValues_distinct := ?_, initValues_ground := ?_ }
        · rw [List.map_append, List.map_singleton]
          exact pairwise_append_singleton h.initValues_distinct hfresh
        · rw [List.map_append, List.map_singleton]
          exact List.forall_mem_append.mpr ⟨h.initValues_ground, List.forall_mem_singleton.mpr hg⟩
  | addGoal g =>
      obtain ⟨hg, rfl⟩ := (addGoal_spec g).ok hrun
      exact { h with goals_bound :=
        List.forall_mem_append.mpr ⟨h.goals_bound, List.forall_mem_singleton.mpr hg⟩ }

theorem WellBuilt.perform {pb : Problem} (h : pb.WellBuilt) (c : BuildCall) :
    (pb.perform c).WellBuilt := by
  cases hrun : c.run.run pb with
  | ok u pb' => rw [perform_of_run_ok hrun]; exact h.accept hrun
  | error e pb' => rw [perform_of_run_error hrun]; exact h

/-- Every run of calls from a well-built problem keeps it well built. -/
theorem WellBuilt.foldl_perform {pb : Problem} (h : pb.WellBuilt) (cs : List BuildCall) :
    (cs.foldl Problem.perform pb).WellBuilt := by
  induction cs generalizing pb with
  | nil => exact h
  | cons c cs ih => exact ih (h.perform c)

/-- Every problem built from the empty one is well built. -/
theorem wellBuilt_build (cs : List BuildCall) : (build cs).WellBuilt :=
  wellBuilt_empty.foldl_perform cs

/-! ## What a run keeps of its history -/

/-- Objects are only ever appended: an accepted call keeps every object at its position. -/
theorem objects_prefix_accept {pb pb' : Problem} {c : BuildCall} {u : Unit}
    (hrun : c.run.run pb = .ok u pb') : pb.objects <+: pb'.objects := by
  cases c with
  | addType n p => obtain rfl := (addType_spec n p).ok hrun; exact List.prefix_refl _
  | addObject n t =>
      obtain ⟨-, ⟨o, -, -, rfl⟩ | ⟨-, rfl⟩⟩ := (addObject_spec n t).ok hrun
      · exact List.prefix_refl _
      · exact List.prefix_append _ _
  | addPredicate n ps =>
      obtain ⟨-, -, rfl⟩ := (addPredicate_spec n ps).ok hrun; exact List.prefix_refl _
  | addFunction n ps =>
      obtain ⟨-, -, rfl⟩ := (addFunction_spec n ps).ok hrun; exact List.prefix_refl _
  | addOperator op =>
      obtain ⟨-, -, -, rfl⟩ := (addOperator_spec op).ok hrun; exact List.prefix_refl _
  | addAxiom ax => obtain ⟨-, rfl⟩ := (addAxiom_spec ax).ok hrun; exact List.prefix_refl _
  | addInit l =>
      obtain ⟨-, -, ⟨-, rfl⟩ | ⟨-, rfl⟩⟩ := (addInit_spec l).ok hrun <;> exact List.prefix_refl _
  | setInitValue f v =>
      obtain ⟨-, ⟨_, -, rfl⟩ | ⟨-, rfl⟩⟩ := (setInitValue_spec f v).ok hrun <;>
        exact List.prefix_refl _
  | addGoal g => obtain ⟨-, rfl⟩ := (addGoal_spec g).ok hrun; exact List.prefix_refl _

theorem objects_prefix_perform (pb : Problem) (c : BuildCall) :
    pb.objects <+: (pb.perform c).objects := by
  cases hrun : c.run.run pb with
  | ok u pb' => rw [perform_of_run_ok hrun]; exact objects_prefix_accept hrun
  | error e pb' => rw [perform_of_run_error hrun]

theorem objects_prefix_foldl (pb : Problem) (cs : List BuildCall) :
    pb.objects <+: (cs.foldl Problem.perform pb).objects := by
  induction cs generalizing pb with
  | nil => exact List.prefix_refl _
  | cons c cs ih => exact (objects_prefix_perform pb c).trans (ih _)

/-- The objects of a run extend those of each of its prefixes: an object keeps the position it
was declared at. -/
theorem objects_prefix_build (cs ds : List BuildCall) :
    (build cs).objects <+: (build (cs ++ ds)).objects := by
  unfold build
  rw [List.foldl_append]
  exact objects_prefix_foldl _ ds

/-- An accepted declaration of an object leaves that object among the objects. -/
theorem WellBuilt.mem_objects_of_addObject {pb pb' : Problem} (h : pb.WellBuilt) {n t : String}
    {u : Unit} (hrun : (addObject n t).run pb = .ok u pb') : (⟨n, t⟩ : Object) ∈ pb'.objects := by
  obtain ⟨-, ⟨o, ho, htype, rfl⟩ | ⟨-, rfl⟩⟩ := (addObject_spec n t).ok hrun
  · obtain ⟨hmem, hname⟩ := h.indexedObject?_eq_some.mp ho
    rw [← hname, ← htype]
    exact hmem
  · exact List.mem_append_right _ (List.mem_singleton_self _)

/-- A declaration of an object accepted at some point of a run is what the index finds for its
name at the end of the run. -/
theorem object_build_of_accepted {pre post : List BuildCall} {n t : String} {u : Unit}
    {pb' : Problem} (hrun : (addObject n t).run (build pre) = .ok u pb') :
    (build (pre ++ BuildCall.addObject n t :: post)).object n = .ok (.const ⟨n, t⟩) := by
  have hnow : (⟨n, t⟩ : Object) ∈ (build (pre ++ [.addObject n t])).objects := by
    rw [build_append_singleton, perform_of_run_ok (c := .addObject n t) hrun]
    exact (wellBuilt_build pre).mem_objects_of_addObject hrun
  have hsplit : pre ++ BuildCall.addObject n t :: post = (pre ++ [.addObject n t]) ++ post := by simp
  rw [hsplit]
  exact (wellBuilt_build _).object_eq_ok.mpr ⟨(objects_prefix_build _ post).subset hnow, rfl⟩

/-- The value a sequence of calls gives to a fluent: the one of the last call setting a fluent the
same as it. -/
def lastValue (f : FluentApp) (cs : List BuildCall) : Option Int :=
  cs.foldl (fun acc c =>
    match c with
    | .setInitValue g v => if g.sameAs f then some v else acc
    | _ => acc) none

/-- The initial value of a ground fluent after a call: a call setting a fluent the same as it
gives the new value, every other call keeps the old one. -/
theorem valueOf_perform {pb : Problem} {f : FluentApp} (hf : f.isGround = true)
    (c : BuildCall) : valueOf f (pb.perform c).initValues =
      match c with
      | .setInitValue g v => if g.sameAs f then some v else valueOf f pb.initValues
      | _ => valueOf f pb.initValues := by
  cases hrun : c.run.run pb with
  | error e pb' =>
      rw [perform_of_run_error hrun]
      cases c with
      | setInitValue g v =>
          -- a refused setting has a fluent that is not ground, so not one the same as `f`
          have hg : g.isGround = false := setInitValue_refused hrun
          have hgf : g.sameAs f = false := Bool.eq_false_iff.mpr fun hgf => by
            rw [FluentApp.isGround_of_sameAs hgf hf] at hg
            cases hg
          simp [hgf]
      | _ => rfl
  | ok u pb' =>
      rw [perform_of_run_ok hrun]
      cases c with
      | addType n p => obtain rfl := (addType_spec n p).ok hrun; rfl
      | addObject n t =>
          obtain ⟨-, ⟨o, -, -, rfl⟩ | ⟨-, rfl⟩⟩ := (addObject_spec n t).ok hrun <;> rfl
      | addPredicate n ps => obtain ⟨-, -, rfl⟩ := (addPredicate_spec n ps).ok hrun; rfl
      | addFunction n ps => obtain ⟨-, -, rfl⟩ := (addFunction_spec n ps).ok hrun; rfl
      | addOperator op => obtain ⟨-, -, -, rfl⟩ := (addOperator_spec op).ok hrun; rfl
      | addAxiom ax => obtain ⟨-, rfl⟩ := (addAxiom_spec ax).ok hrun; rfl
      | addInit l => obtain ⟨-, -, ⟨-, rfl⟩ | ⟨-, rfl⟩⟩ := (addInit_spec l).ok hrun <;> rfl
      | addGoal g => obtain ⟨-, rfl⟩ := (addGoal_spec g).ok hrun; rfl
      | setInitValue g v =>
          obtain ⟨-, ⟨vs, hvs, rfl⟩ | ⟨hnone, rfl⟩⟩ := (setInitValue_spec g v).ok hrun
          · exact valueOf_setFirstValue f hvs
          · exact valueOf_append_fresh hnone f

theorem valueOf_foldl (pb : Problem) {f : FluentApp} (hf : f.isGround = true)
    (cs : List BuildCall) : valueOf f (cs.foldl Problem.perform pb).initValues =
      cs.foldl (fun acc c =>
        match c with
        | .setInitValue g v => if g.sameAs f then some v else acc
        | _ => acc) (valueOf f pb.initValues) := by
  induction cs generalizing pb with
  | nil => rfl
  | cons c cs ih =>
      rw [List.foldl_cons, List.foldl_cons, ih, valueOf_perform hf]

/-- The initial value of a ground fluent is the one of the last call setting a fluent the same
as it. -/
theorem value_build {f : FluentApp} (hf : f.isGround = true) (cs : List BuildCall) :
    valueOf f (build cs).initValues = lastValue f cs :=
  valueOf_foldl {} hf cs

/-- The builder keeps the invariants of the model over every sequence of calls from the empty
problem. Whatever the problem, a refused call leaves it as it was. Objects have distinct names;
declaring one again with its type changes nothing; the constant of a name is the object of that
name, the one an accepted declaration made; the index holds each object's name with its
position, in declaration order, and finds what the search by name finds; and objects keep their
positions. Predicate names are distinct, equality comes first and is always found, and function
names are distinct. The initial state holds positive ground literals, no two the same for the
planner, and one value for each fluent, the last one set. And `check` accepts the problem. -/
theorem build_keeps_problem_invariants (cs : List BuildCall) :
    (∀ (pb : Problem) (c : BuildCall) (e : ModelError) (pb' : Problem),
      c.run.run pb = .error e pb' → pb' = pb) ∧
    ((build cs).objects.map (·.name)).Nodup ∧
    (∀ o ∈ (build cs).objects, (addObject o.name o.type).run (build cs) = .ok () (build cs)) ∧
    (∀ n o, (build cs).object n = .ok (.const o) ↔ o ∈ (build cs).objects ∧ o.name = n) ∧
    (∀ pre post n t u pb', cs = pre ++ BuildCall.addObject n t :: post →
      (addObject n t).run (build pre) = .ok u pb' → (build cs).object n = .ok (.const ⟨n, t⟩)) ∧
    (build cs).objectIndex = (build cs).objects.mapIdx (fun i o => (o.name, i)) ∧
    (∀ n i, (build cs).objectIndex.lookup n = some i ↔
      ∃ o, (build cs).objects[i]? = some o ∧ o.name = n) ∧
    (∀ n, (build cs).indexedObject? n = (build cs).findObject? n) ∧
    (∀ pre post, cs = pre ++ post → (build pre).objects <+: (build cs).objects) ∧
    ((build cs).predicates.map (·.name)).Nodup ∧
    (build cs).predicates.head? = some Predicate.equality ∧
    (build cs).findPredicate? equalityName = some Predicate.equality ∧
    ((build cs).functions.map (·.name)).Nodup ∧
    (build cs).init.Pairwise (fun l l' => l.sameAs l' = false) ∧
    (∀ l ∈ (build cs).init, l.isGround = true ∧ l.negated = false) ∧
    ((build cs).initValues.map (·.1)).Pairwise (fun f g => f.sameAs g = false) ∧
    (∀ f, f.isGround = true →
      ((build cs).initValues.find? (·.1.sameAs f)).map (·.2) = lastValue f cs) ∧
    (build cs).check = .ok () := by
  have h := wellBuilt_build cs
  refine ⟨fun _ c _ _ hrun => c.run_refused hrun, h.objects_nodup,
    fun o ho => h.addObject_again ho, fun n o => h.object_eq_ok, ?_, h.index_eq,
    fun n i => h.lookup_index, h.indexedObject?_eq_findObject?, ?_, h.predicates_nodup,
    h.equality_first, h.findPredicate?_equality, h.functions_nodup, h.init_distinct, h.init_ground,
    h.initValues_distinct, fun f hf => value_build hf cs, h.check_eq_ok⟩
  · rintro pre post n t u pb' rfl hrun
    exact object_build_of_accepted hrun
  · rintro pre post rfl
    exact objects_prefix_build pre post

end Problem

end Pddl
