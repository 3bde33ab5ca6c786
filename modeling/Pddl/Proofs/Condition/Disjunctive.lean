import Pddl.Proofs.Condition.Kinds
/-!
# Disjunctive normal form

`dnf` distributes conjunction over disjunction. `InDnf A` is the shape it produces: a
disjunction of clauses, never of a single one, or a single clause; a clause is a conjunction of
at least two atoms or one atom; an atom is neither a conjunction nor a disjunction, and
satisfies `A`. Only the top of a condition is read: quantifications and conditional effects are
atoms, whatever their parts.

Main statements:

* the disjunctive normal form keeps every value a condition has (`evalIn_dnf`);
* it is the constant true or in the shape, with atoms that `dnf` leaves as they are
  (`dnf_shape`), so converting it again changes nothing (`dnf_dnf`);
* on a negation normal form it gives a negation normal form, true or false only where the
  condition is (`nnf_dnf`);
* it has no explicit negation when the condition has none (`notFree_dnf`), in particular on
  a negation normal form.

The constant true is the empty conjunction, which is no clause: it is its own normal form.
-/

namespace Pddl

namespace Condition

/-! ## The shape -/

section Shape

variable (A : Condition → Prop)

/-- An atom of a disjunctive normal form: neither a conjunction nor a disjunction, and `A`. -/
def DnfAtom : Condition → Prop
  | .and _ => False
  | .or _ => False
  | c => A c

/-- A clause: a conjunction of at least two atoms, or one atom. -/
def DnfClause : Condition → Prop
  | .and cs => 2 ≤ cs.length ∧ ∀ c ∈ cs, DnfAtom A c
  | c => DnfAtom A c

/-- Disjunctive normal form: a disjunction of clauses, never of a single one (the disjunction
of none is the constant false), or one clause. -/
def InDnf : Condition → Prop
  | .or ds => ds.length ≠ 1 ∧ ∀ d ∈ ds, DnfClause A d
  | c => DnfClause A c

end Shape

section Shape

variable {A : Condition → Prop}

theorem DnfAtom.not_members? (k : Junction) {c : Condition} (h : c.DnfAtom A) :
    k.members? c = none := by
  cases k <;> cases c <;> simp_all [DnfAtom, Junction.members?]

theorem DnfAtom.keeps (k : Junction) {c : Condition} (h : c.DnfAtom A) : k.Keeps c := by
  refine ⟨h.not_members? k, ?_⟩
  cases k <;> cases c <;> simp_all [DnfAtom, Junction.absorbs, isTautology, isContradiction]

theorem DnfAtom.holds {c : Condition} (h : c.DnfAtom A) : A c := by
  cases c with
  | and cs => exact h.elim
  | or ds => exact h.elim
  | _ => exact h

theorem DnfAtom.clause {c : Condition} (h : c.DnfAtom A) : c.DnfClause A := by
  cases c with
  | and cs => exact h.elim
  | _ => exact h

theorem DnfClause.ne_or {d : Condition} (h : d.DnfClause A) : ∀ ds, d ≠ .or ds := by
  rintro ds rfl
  exact h

/-- A disjunction keeps each clause as it is. -/
theorem DnfClause.keeps_disj {d : Condition} (h : d.DnfClause A) : Junction.disj.Keeps d := by
  cases d with
  | and cs =>
      refine ⟨rfl, ?_⟩
      cases cs with
      | nil => exact absurd h.1 (by decide)
      | cons => rfl
  | or ds => exact h.elim
  | _ => exact DnfAtom.keeps .disj (by exact h)

theorem DnfClause.inDnf {d : Condition} (h : d.DnfClause A) : d.InDnf A := by
  cases d with
  | or ds => exact absurd h (by simp [DnfClause, DnfAtom])
  | _ => exact h

/-- The disjuncts of a disjunctive normal form are clauses. -/
theorem InDnf.mem_disjuncts {e : Condition} (h : e.InDnf A) : ∀ d ∈ e.disjuncts, d.DnfClause A := by
  cases e with
  | or ds => exact h.2
  | _ =>
      intro d hd
      simp only [disjuncts, List.mem_singleton] at hd
      subst hd
      exact h

theorem DnfAtom.mono {B : Condition → Prop} (hAB : ∀ c, A c → B c) {c : Condition}
    (h : c.DnfAtom A) : c.DnfAtom B := by
  cases c <;> simp_all [DnfAtom]

theorem DnfClause.mono {B : Condition → Prop} (hAB : ∀ c, A c → B c) {d : Condition}
    (h : d.DnfClause A) : d.DnfClause B := by
  cases d with
  | and cs => exact ⟨h.1, fun c hc => (h.2 c hc).mono hAB⟩
  | or ds => exact h.elim
  | _ => exact hAB _ h

theorem InDnf.mono {B : Condition → Prop} (hAB : ∀ c, A c → B c) {e : Condition}
    (h : e.InDnf A) : e.InDnf B := by
  cases e with
  | or ds => exact ⟨h.1, fun d hd => (h.2 d hd).mono hAB⟩
  | and cs => exact (DnfClause.mono hAB h : DnfClause B (.and cs))
  | _ => exact hAB _ h

end Shape

end Condition

/-! ## Normalizing clauses and disjunctions -/

namespace Junction

open Condition

variable {A : Condition → Prop}

/-- Flattening fails only at an element that absorbs the set. -/
theorem exists_absorbs_of_flatten_eq_none {k : Junction} :
    ∀ {es : List Condition}, k.flatten es = none → ∃ e ∈ es, k.absorbs e = true
  | [], h => by simp [flatten] at h
  | e :: es, h => by
      simp only [flatten] at h
      have hrest : k.flatten es = none → ∃ x ∈ e :: es, k.absorbs x = true := fun hr => by
        obtain ⟨x, hx, hxa⟩ := exists_absorbs_of_flatten_eq_none hr
        exact ⟨x, .tail _ hx, hxa⟩
      split at h
      · exact hrest (Option.map_eq_none_iff.mp h)
      · split at h
        · rename_i ha
          exact ⟨e, .head _, ha⟩
        · exact hrest (Option.map_eq_none_iff.mp h)

/-- A set that keeps its only element is that element. -/
theorem normalize_singleton_of_keeps {k : Junction} {c : Condition} (h : k.Keeps c) :
    k.normalize [c] = c := by
  unfold normalize
  rw [flatten_of_keeps (by simpa using h)]

/-- A conjunction of clauses and constants true is a clause, or true when nothing is left. -/
theorem conj_normalize_clause {t : List Condition}
    (h : ∀ x ∈ t, x = tautology ∨ x.DnfClause A) :
    conj.normalize t = tautology ∨ (conj.normalize t).DnfClause A := by
  -- no member absorbs the conjunction, and each flattened element is an atom
  have hatoms : ∀ flat, conj.flatten t = some flat → ∀ x ∈ flat, x.DnfAtom A := by
    intro flat hf x hx
    rcases mem_flatten_keeps hf x hx with ⟨hx, hk⟩ | ⟨nested, hn, hx⟩
    · rcases h x hx with rfl | hc
      · exact absurd hk.1 (by simp [tautology, members?])
      · cases x with
        | and cs => exact absurd hk.1 (by simp [members?])
        | _ => exact hc
    · rcases h _ hn with ht | hc
      · simp only [build, tautology, Condition.and.injEq] at ht
        simp [ht] at hx
      · exact hc.2 x hx
  rcases normalize_spec conj t with ⟨hf, -⟩ | ⟨e, hf, hn⟩ | ⟨flat, hf, hlen, hn⟩
  · -- flattening fails only at an absorbing member, the constant false, which is no clause
    obtain ⟨x, hx, hxa⟩ := exists_absorbs_of_flatten_eq_none hf
    have hfalse : x = contradiction := isContradiction_iff.mp hxa
    rcases h x hx with ht | hc
    · rw [hfalse] at ht
      cases ht
    · rw [hfalse] at hc
      exact hc.elim
  · rw [hn]
    exact .inr (hatoms [e] hf e (.head _)).clause
  · rw [hn]
    rcases flat with _ | ⟨_, _ | ⟨_, _⟩⟩
    · exact .inl rfl
    · exact absurd rfl hlen
    · exact .inr ⟨by simp, hatoms _ hf⟩

/-- A disjunction of disjunctive normal forms and constants true is true, or in disjunctive
normal form. -/
theorem disj_normalize_inDnf {es : List Condition} (h : ∀ e ∈ es, e = tautology ∨ e.InDnf A) :
    disj.normalize es = tautology ∨ (disj.normalize es).InDnf A := by
  -- each flattened element is a clause: a disjunct of an element, or an element that is one
  have hclauses : ∀ flat, disj.flatten es = some flat → ∀ x ∈ flat, x.DnfClause A := by
    intro flat hf x hx
    rcases mem_flatten_keeps hf x hx with ⟨hx, hk⟩ | ⟨nested, hn, hx⟩
    · rcases h x hx with rfl | hd
      · exact absurd hk.2 (by simp [absorbs, tautology, isTautology])
      · cases x with
        | or ds => exact absurd hk.1 (by simp [members?])
        | _ => exact hd
    · rcases h _ hn with ht | hd
      · simp [build, tautology] at ht
      · exact hd.2 x hx
  rcases normalize_spec disj es with ⟨-, hn⟩ | ⟨e, hf, hn⟩ | ⟨flat, hf, hlen, hn⟩ <;> rw [hn]
  · exact .inl rfl
  · exact .inr (hclauses [e] hf e (.head _)).inDnf
  · exact .inr ⟨hlen, hclauses flat hf⟩

/-! ## Constants out of normalized sets -/

theorem members?_build (k : Junction) (cs : List Condition) : k.members? (k.build cs) = some cs := by
  cases k <;> rfl

theorem absorbs_dual_build_nil (k : Junction) : k.absorbs (k.dual.build []) = true := by
  cases k <;> rfl

theorem eq_dual_build_nil_of_absorbs {k : Junction} {c : Condition} (h : k.absorbs c = true) :
    c = k.dual.build [] := by
  cases k
  · exact isContradiction_iff.mp h
  · exact isTautology_iff.mp h

/-- A set flattens to no element only when each of its elements is the empty set of its kind. -/
theorem eq_build_nil_of_flatten_eq_nil {k : Junction} :
    ∀ {es : List Condition}, k.flatten es = some [] → ∀ e ∈ es, e = k.build []
  | [], _ => by simp
  | e :: es, h => by
      simp only [flatten] at h
      split at h
      · rename_i nested hn
        obtain ⟨rest, hr, hnil⟩ := Option.map_eq_some_iff.mp h
        obtain ⟨rfl, rfl⟩ := List.append_eq_nil_iff.mp hnil
        intro x hx
        rcases List.mem_cons.mp hx with rfl | hx
        · exact eq_build_of_members? hn
        · exact eq_build_nil_of_flatten_eq_nil hr x hx
      · split at h
        · cases h
        · obtain ⟨rest, -, hnil⟩ := Option.map_eq_some_iff.mp h
          cases hnil

/-- A normalized set of conditions in normal form is the absorbing constant only when one of
them is. -/
theorem normalize_ne_absorbing {k : Junction} {es : List Condition} (h : ∀ e ∈ es, e.Nnf)
    (hes : ∀ e ∈ es, e ≠ k.dual.build []) : k.normalize es ≠ k.dual.build [] := by
  rcases normalize_spec k es with ⟨hf, -⟩ | ⟨e, hf, hn⟩ | ⟨flat, -, -, hn⟩
  · obtain ⟨e, he, habs⟩ := exists_absorbs_of_flatten_eq_none hf
    exact absurd (eq_dual_build_nil_of_absorbs habs) (hes e he)
  · -- the only flattened element is kept by the set, so it does not absorb it
    rw [hn]
    rintro rfl
    have hk := (nnf_keeps_of_mem_flatten h hf _ (.head _)).2
    exact Bool.false_ne_true (hk.2.symm.trans (absorbs_dual_build_nil k))
  · rw [hn]
    cases k <;> nofun

/-- A normalized set of conditions in normal form, none of them the empty set of its kind, is
not that empty set either, unless there are no conditions at all. -/
theorem normalize_ne_unit {k : Junction} {es : List Condition} (h : ∀ e ∈ es, e.Nnf)
    (hne : es ≠ []) (hes : ∀ e ∈ es, e ≠ k.build []) : k.normalize es ≠ k.build [] := by
  rcases normalize_spec k es with ⟨-, hn⟩ | ⟨e, hf, hn⟩ | ⟨flat, hf, -, hn⟩
  · rw [hn]
    cases k <;> nofun
  · rw [hn]
    rintro rfl
    have hk := (nnf_keeps_of_mem_flatten h hf _ (.head _)).2
    exact absurd (members?_build k []) (by rw [hk.1]; nofun)
  · -- flattening to nothing needs elements that are all empty sets
    rw [hn]
    intro hb
    have hflat : flat = [] := by cases k <;> cases hb <;> rfl
    subst hflat
    obtain ⟨e, he⟩ := List.exists_mem_of_ne_nil es hne
    exact hes e he (eq_build_nil_of_flatten_eq_nil hf e he)

/-- A single condition in normal form is its own normalized set. -/
theorem normalize_singleton_of_nnf (k : Junction) {c : Condition} (h : c.Nnf) :
    k.normalize [c] = c := by
  cases hm : k.members? c with
  | some nested =>
      -- a set of the kind is flattened into its members, which it keeps as they are
      obtain rfl := eq_build_of_members? hm
      have hnode := (nnfNode_build k nested).mp (everywhere_build.mp h).1
      have hflat : k.flatten [k.build nested] = k.flatten nested := by
        rw [flatten_of_keeps hnode.2]
        simp [flatten, members?_build]
      calc k.normalize [k.build nested] = k.normalize nested := by
            unfold normalize
            rw [hflat]
        _ = k.build nested := normalize_of_keeps hnode.1 hnode.2
  | none =>
      by_cases ha : k.absorbs c = true
      · have hflat : k.flatten [c] = none := by simp [flatten, hm, ha]
        unfold normalize
        rw [hflat]
        exact (eq_dual_build_nil_of_absorbs ha).symm
      · exact normalize_singleton_of_keeps ⟨hm, by simpa using ha⟩

/-- Normalizing a set of conditions in normal form, none of them constant, gives a condition in
normal form that is not constant either, unless the set is empty. -/
theorem normalize_nonconstant (k : Junction) {es : List Condition} (hne : es ≠ [])
    (h : ∀ e ∈ es, e.Nnf ∧ e ≠ tautology ∧ e ≠ contradiction) :
    (k.normalize es).Nnf ∧ k.normalize es ≠ tautology ∧ k.normalize es ≠ contradiction := by
  have hnnf : ∀ e ∈ es, e.Nnf := fun e he => (h e he).1
  cases k with
  | conj =>
      exact ⟨nnf_normalize conj hnnf, normalize_ne_unit hnnf hne fun e he => (h e he).2.1,
        normalize_ne_absorbing hnnf fun e he => (h e he).2.2⟩
  | disj =>
      exact ⟨nnf_normalize disj hnnf, normalize_ne_absorbing hnnf fun e he => (h e he).2.1,
        normalize_ne_unit hnnf hne fun e he => (h e he).2.2⟩

end Junction

/-- Picking from single elements gives the one tuple of them. -/
theorem cartesian_singletons {α : Type} : ∀ xs : List α, cartesian (xs.map fun x => [x]) = [xs]
  | [] => rfl
  | x :: xs => by simp [cartesian_singletons xs]

/-- A product of lists that are not empty is not empty. -/
theorem cartesian_ne_nil {α : Type} :
    ∀ {ls : List (List α)}, (∀ l ∈ ls, l ≠ []) → cartesian ls ≠ []
  | [], _ => by simp
  | c :: cs, h => by
      obtain ⟨x, hx⟩ := List.exists_mem_of_ne_nil c (h c (.head _))
      obtain ⟨t, ht⟩ := List.exists_mem_of_ne_nil _ (cartesian_ne_nil fun l hl => h l (.tail _ hl))
      exact List.ne_nil_of_mem ((mem_cartesian _ _).mpr (.cons hx ((mem_cartesian _ _).mp ht)))

namespace Condition

theorem dnfAll_eq_map (cs : List Condition) : dnfAll cs = cs.map dnf := by
  induction cs with
  | nil => rfl
  | cons c cs ih => rw [dnfAll, ih, List.map_cons]

theorem DnfAtom.disjuncts_eq {A : Condition → Prop} {c : Condition} (h : c.DnfAtom A) :
    c.disjuncts = [c] := by
  cases c with
  | or ds => exact h.elim
  | _ => rfl

/-! ## Shape of the disjunctive normal form -/

/-- A clause whose atoms `dnf` leaves as they are is left as it is. -/
theorem dnf_of_clause {d : Condition} (h : d.DnfClause fun a => a.dnf = a) : d.dnf = d := by
  cases d with
  | and cs =>
      obtain ⟨hlen, hatoms⟩ := h
      have hne : cs.isEmpty = false := by
        cases cs with
        | nil => simp at hlen
        | cons => rfl
      -- each member is its own only disjunct, so the product has the one tuple `cs`
      have hdisj : (dnfAll cs).map disjuncts = cs.map fun c => [c] := by
        rw [dnfAll_eq_map, List.map_map]
        exact List.map_congr_left fun c hc => by
          simp only [Function.comp_apply, (hatoms c hc).holds]
          exact (hatoms c hc).disjuncts_eq
      simp only [dnf, hne, Bool.false_eq_true, if_false, hdisj, cartesian_singletons, List.map_cons,
        List.map_nil]
      rw [Junction.normalize_of_keeps (by omega) fun c hc => (hatoms c hc).keeps .conj]
      exact Junction.normalize_singleton_of_keeps (DnfClause.keeps_disj ⟨hlen, hatoms⟩)
  | or ds => exact h.elim
  | _ => exact h

/-- A disjunctive normal form whose atoms `dnf` leaves as they are is left as it is. -/
theorem dnf_of_inDnf {e : Condition} (h : e.InDnf fun a => a.dnf = a) : e.dnf = e := by
  cases e with
  | or ds =>
      obtain ⟨hlen, hclauses⟩ := h
      have hfix : dnfAll ds = ds := by
        rw [dnfAll_eq_map]
        exact (List.map_congr_left fun d hd => dnf_of_clause (hclauses d hd)).trans (List.map_id ds)
      simp only [dnf, hfix]
      exact Junction.normalize_of_keeps hlen fun d hd => (hclauses d hd).keeps_disj
  | _ => exact dnf_of_clause (by exact h)

theorem dnf_of_shape {e : Condition} (h : e = tautology ∨ e.InDnf fun a => a.dnf = a) :
    e.dnf = e := by
  rcases h with rfl | h
  · rfl
  · exact dnf_of_inDnf h

mutual

/-- The disjunctive normal form of a condition is the constant true, or in disjunctive normal
form with atoms that `dnf` leaves as they are. -/
theorem dnf_shape : ∀ c : Condition, c.dnf = tautology ∨ c.dnf.InDnf fun a => a.dnf = a
  | .or cs => by
      simp only [dnf]
      exact Junction.disj_normalize_inDnf (dnfAll_shape cs)
  | .and cs => by
      have hds := dnfAll_shape cs
      simp only [dnf]
      split
      · exact .inl rfl
      · apply Junction.disj_normalize_inDnf
        intro e he
        obtain ⟨t, ht, rfl⟩ := List.mem_map.mp he
        -- a tuple picks, from each member, a disjunct of its normal form: a clause, or true
        have hpicks : ∀ x ∈ t, x = tautology ∨ x.DnfClause fun a => a.dnf = a := by
          intro x hx
          obtain ⟨l, hl, hxl⟩ := ((mem_cartesian _ _).mp ht).exists_mem x hx
          obtain ⟨d, hd, rfl⟩ := List.mem_map.mp hl
          rcases hds d hd with rfl | hdnf
          · exact .inl (List.mem_singleton.mp hxl)
          · exact .inr (hdnf.mem_disjuncts x hxl)
        rcases Junction.conj_normalize_clause hpicks with h | h
        · exact .inl h
        · exact .inr h.inDnf
  | .not c => .inr (congrArg Condition.not (dnf_of_shape (dnf_shape c)))
  | .quant q vs c => .inr (congrArg (Condition.quant q vs) (dnf_of_shape (dnf_shape c)))
  | .when p c =>
      .inr (show Condition.when p.dnf.dnf c.dnf.dnf = .when p.dnf c.dnf by
        rw [dnf_of_shape (dnf_shape p), dnf_of_shape (dnf_shape c)])
  | .lit _ => .inr rfl
  | .numEffect _ => .inr rfl
  | .compare _ => .inr rfl

theorem dnfAll_shape :
    ∀ cs : List Condition, ∀ d ∈ dnfAll cs, d = tautology ∨ d.InDnf fun a => a.dnf = a
  | [], _, hd => nomatch hd
  | c :: cs, d, hd => by
      rcases List.mem_cons.mp hd with rfl | hd
      · exact dnf_shape c
      · exact dnfAll_shape cs d hd

end

/-- Converting a disjunctive normal form again changes nothing. -/
theorem dnf_dnf (c : Condition) : c.dnf.dnf = c.dnf :=
  dnf_of_shape (dnf_shape c)

/-! ## Values -/

/-- Some pick of one element of each list has only true elements exactly when each list has a
true element. -/
theorem any_cartesian_all {α : Type} (w : α → Bool) :
    ∀ ls : List (List α), (cartesian ls).any (fun t => t.all w) = ls.all fun l => l.any w
  | [] => rfl
  | l :: ls => by
      simp only [cartesian_cons, List.any_flatMap, List.any_map, Function.comp_def, List.all_cons,
        ← List.and_any_distrib_left, ← List.and_any_distrib_right, any_cartesian_all w ls]

section Values

variable {pb : Problem} {holds : String → List String → Bool} {σ : Subst}

/-- A set of conditions that have values has the junction of them. -/
theorem evalAll_map_of_values {α : Type} (conj : Bool) {g : α → Condition} {u : α → Bool} :
    ∀ {ts : List α}, (∀ t ∈ ts, evalIn pb holds σ (g t) = some (u t)) →
      evalAll pb holds σ conj (ts.map g) = some (if conj then ts.all u else ts.any u)
  | [], _ => by cases conj <;> rfl
  | t :: ts, h => by
      rw [List.map_cons, evalAll, h t (.head _),
        evalAll_map_of_values conj fun t' ht' => h t' (.tail _ ht'), combine_some_some]
      cases conj <;> simp

theorem evalAll_of_values (conj : Bool) {w : Condition → Bool} {xs : List Condition}
    (h : ∀ x ∈ xs, evalIn pb holds σ x = some (w x)) :
    evalAll pb holds σ conj xs = some (if conj then xs.all w else xs.any w) := by
  have hmap : evalAll pb holds σ conj (xs.map id) = some (if conj then xs.all w else xs.any w) :=
    evalAll_map_of_values conj h
  simpa using hmap

/-- Each member of a set that has a value has one. -/
theorem values_of_evalAll {conj v : Bool} :
    ∀ {xs : List Condition}, evalAll pb holds σ conj xs = some v →
      ∀ x ∈ xs, ∃ b, evalIn pb holds σ x = some b
  | [], _ => by simp
  | x :: xs, h => by
      obtain ⟨a, b, ha, hb, -⟩ := combine_eq_some_iff.mp h
      intro y hy
      rcases List.mem_cons.mp hy with rfl | hy
      · exact ⟨a, ha⟩
      · exact values_of_evalAll hb y hy

theorem values_of_disjuncts {d : Condition} {v : Bool} (h : evalIn pb holds σ d = some v) :
    ∀ x ∈ d.disjuncts, ∃ b, evalIn pb holds σ x = some b := by
  cases d with
  | or xs => exact values_of_evalAll h
  | _ =>
      intro x hx
      simp only [disjuncts, List.mem_singleton] at hx
      subst hx
      exact ⟨v, h⟩

/-- A condition whose disjuncts have values has their disjunction. -/
theorem evalIn_of_disjuncts {d : Condition} {w : Condition → Bool}
    (h : ∀ x ∈ d.disjuncts, evalIn pb holds σ x = some (w x)) :
    evalIn pb holds σ d = some (d.disjuncts.any w) := by
  cases d with
  | or xs =>
      simpa [evalIn, disjuncts] using evalAll_of_values false h
  | _ => simpa [disjuncts] using h _ (by simp [disjuncts])

mutual

/-- Disjunctive normal form keeps every value a condition has. -/
theorem evalIn_dnf : ∀ {v : Bool} {σ : Subst} (c : Condition),
    evalIn pb holds σ c = some v → evalIn pb holds σ c.dnf = some v
  | v, σ, .or cs, h => by
      simp only [dnf]
      apply evalIn_normalize
      exact evalAll_dnfAll false cs h
  | v, σ, .and cs, h => by
      simp only [dnf]
      split
      · rename_i hnil
        rw [List.isEmpty_iff] at hnil
        subst hnil
        exact h
      · have hds : evalAll pb holds σ true (dnfAll cs) = some v := evalAll_dnfAll true cs h
        -- every disjunct of the normal form of a member has a value; `w` reads it
        let w : Condition → Bool := fun x => (evalIn pb holds σ x).getD false
        have hvals : ∀ d ∈ dnfAll cs, ∀ x ∈ d.disjuncts, evalIn pb holds σ x = some (w x) := by
          intro d hd x hx
          obtain ⟨b, hb⟩ := values_of_evalAll hds d hd
          obtain ⟨b', hb'⟩ := values_of_disjuncts hb x hx
          simp [w, hb']
        -- so the members have the conjunction of the disjunctions of their disjuncts
        have hv : v = (dnfAll cs).all fun d => d.disjuncts.any w := by
          have hall := evalAll_of_values true fun d hd => evalIn_of_disjuncts (hvals d hd)
          rw [hds] at hall
          simpa using hall
        -- and each pick of one disjunct per member has the conjunction of the picked values
        have hpicks : ∀ t ∈ cartesian ((dnfAll cs).map disjuncts),
            evalIn pb holds σ (Junction.conj.normalize t) = some (t.all w) := by
          intro t ht
          apply evalIn_normalize
          rw [evalIn_build]
          apply evalAll_of_values true
          intro x hx
          obtain ⟨l, hl, hxl⟩ := ((mem_cartesian _ _).mp ht).exists_mem x hx
          obtain ⟨d, hd, rfl⟩ := List.mem_map.mp hl
          exact hvals d hd x hxl
        apply evalIn_normalize
        rw [evalIn_build]
        show evalAll pb holds σ false _ = some v
        rw [evalAll_map_of_values false hpicks, hv]
        simp only [Bool.false_eq_true, if_false, any_cartesian_all, List.all_map]
        rfl
  | v, σ, .not c, h => by
      simp only [evalIn, Option.map_eq_some_iff] at h
      obtain ⟨w, hw, rfl⟩ := h
      simp only [dnf, evalIn, evalIn_dnf c hw, Option.map_some]
  | v, σ, .quant q vs c, h => by
      rw [evalIn_quant] at h
      have hinst : ∀ t ∈ pb.bindings vs, ∀ w,
          evalIn pb holds (Subst.ofLists vs t ++ σ) c = some w →
            evalIn pb holds (Subst.ofLists vs t ++ σ) c.dnf = some (xor w false) :=
        fun t _ w hw => by rw [Bool.xor_false]; exact evalIn_dnf c hw
      have hkeep := foldr_combine_xor hinst h
      simp only [Bool.xor_false] at hkeep
      simp only [dnf]
      rw [evalIn_quant]
      exact hkeep
  | _, _, .when .., h => by cases h
  | _, _, .numEffect _, h => by cases h
  | _, _, .compare _, h => by cases h
  | _, _, .lit _, h => h

theorem evalAll_dnfAll {σ : Subst} (conj : Bool) : ∀ {v : Bool} (cs : List Condition),
    evalAll pb holds σ conj cs = some v → evalAll pb holds σ conj (dnfAll cs) = some v
  | v, [], h => h
  | v, c :: cs, h => by
      simp only [evalAll] at h
      simp only [dnfAll, evalAll]
      obtain ⟨a, b, ha, hb, rfl⟩ := combine_eq_some_iff.mp h
      rw [evalIn_dnf c ha, evalAll_dnfAll conj cs hb]
      rfl

end

end Values

/-! ## No explicit negation -/

/-- The condition has no explicit negation. -/
abbrev NotFree (c : Condition) : Prop := c.Everywhere fun n => ∀ d, n ≠ .not d

theorem Everywhere.of_mem_disjuncts {P : Condition → Prop} {c d : Condition}
    (hc : c.Everywhere P) (hd : d ∈ c.disjuncts) : d.Everywhere P := by
  cases c with
  | or cs => exact (everywhereAll_iff.mp hc.2) d hd
  | _ =>
      simp only [disjuncts, List.mem_singleton] at hd
      subst hd
      exact hc

mutual

/-- Disjunctive normal form keeps a property of the kinds of nodes: it builds conjunctions and
disjunctions and keeps the other nodes, converting their parts in place. -/
theorem everywhere_dnf {P : Condition → Prop} (hP : KindProperty P) :
    ∀ c : Condition, c.Everywhere P → c.dnf.Everywhere P
  | .or cs, h => by
      simp only [dnf]
      exact Junction.normalize_of_forall (everywhere_build_iff hP.junction)
        (everywhereAll_iff.mp (everywhereAll_dnfAll hP cs h.2))
  | .and cs, h => by
      have hds := everywhereAll_iff.mp (everywhereAll_dnfAll hP cs h.2)
      simp only [dnf]
      split
      · exact everywhere_tautology hP
      · apply Junction.normalize_of_forall (everywhere_build_iff hP.junction)
        intro e he
        obtain ⟨t, ht, rfl⟩ := List.mem_map.mp he
        apply Junction.normalize_of_forall (everywhere_build_iff hP.junction)
        intro x hx
        obtain ⟨l, hl, hxl⟩ := ((mem_cartesian _ _).mp ht).exists_mem x hx
        obtain ⟨d, hd, rfl⟩ := List.mem_map.mp hl
        exact Everywhere.of_mem_disjuncts (hds d hd) hxl
  | .not c, h => ⟨hP.of_sameKind h.1 trivial, everywhere_dnf hP c h.2⟩
  | .quant _ _ c, h => ⟨hP.of_sameKind h.1 trivial, everywhere_dnf hP c h.2⟩
  | .when p c, h =>
      ⟨hP.of_sameKind h.1 trivial, everywhere_dnf hP p h.2.1, everywhere_dnf hP c h.2.2⟩
  | .lit _, h => h
  | .numEffect _, h => h
  | .compare _, h => h

theorem everywhereAll_dnfAll {P : Condition → Prop} (hP : KindProperty P) :
    ∀ cs : List Condition, EverywhereAll P cs → EverywhereAll P (dnfAll cs)
  | [], _ => trivial
  | c :: cs, h => ⟨everywhere_dnf hP c h.1, everywhereAll_dnfAll hP cs h.2⟩
end

/-- Disjunctive normal form brings in no explicit negation. -/
theorem notFree_dnf (c : Condition) (h : c.NotFree) : c.dnf.NotFree :=
  everywhere_dnf kindProperty_notFree c h

/-- A negation normal form has no explicit negation. -/
theorem Nnf.notFree {c : Condition} (h : c.Nnf) : c.NotFree :=
  Everywhere.mono (fun n hn d hd => by subst hd; exact hn) c h

/-! ## The normal form of a negation normal form -/

section Negation

open Junction

/-- The disjuncts of a condition in normal form are in normal form, never false, and true only
when the condition is. -/
theorem nnf_of_mem_disjuncts {d x : Condition} (hd : d.Nnf) (hx : x ∈ d.disjuncts) :
    x.Nnf ∧ (d ≠ tautology → x ≠ tautology) ∧ x ≠ contradiction := by
  refine ⟨Everywhere.of_mem_disjuncts hd hx, ?_⟩
  cases d with
  | or ds =>
      -- a disjunction in normal form has neither disjunctions nor true among its members
      obtain ⟨hor, htaut⟩ := hd.1.2 x hx
      exact ⟨fun _ => htaut, hor []⟩
  | _ =>
      rw [List.mem_singleton.mp hx]
      exact ⟨id, nofun⟩

theorem disjuncts_ne_nil {d : Condition} (h : d ≠ contradiction) : d.disjuncts ≠ [] := by
  cases d with
  | or ds =>
      cases ds with
      | nil => exact absurd rfl h
      | cons => nofun
  | _ => nofun

mutual

/-- The disjunctive normal form of a negation normal form is a negation normal form, and it is
true or false only when the condition is. -/
theorem nnf_dnf : ∀ c : Condition, c.Nnf →
    c.dnf.Nnf ∧ (c ≠ tautology → c.dnf ≠ tautology) ∧ (c ≠ contradiction → c.dnf ≠ contradiction)
  | .or cs, h => by
      have hall := nnfAll_dnf cs h.2
      obtain ⟨-, hmem⟩ := h.1
      simp only [dnf, dnfAll_eq_map]
      refine ⟨nnf_normalize disj fun _ he => ?_, fun _ => ?_, fun hc => ?_⟩
      · obtain ⟨c, hc, rfl⟩ := List.mem_map.mp he
        exact (hall c hc).1
      · -- no member is true, so neither is its normal form
        exact normalize_ne_absorbing (List.forall_mem_map.mpr fun c hc => (hall c hc).1)
          (List.forall_mem_map.mpr fun c hc => (hall c hc).2.1 (hmem c hc).2)
      · have hne : cs ≠ [] := by
          rintro rfl
          exact hc rfl
        exact normalize_ne_unit (List.forall_mem_map.mpr fun c hc => (hall c hc).1)
          (by simpa using hne)
          (List.forall_mem_map.mpr fun c hc => (hall c hc).2.2 ((hmem c hc).1 []))
  | .and cs, h => by
      have hall := nnfAll_dnf cs h.2
      obtain ⟨-, hmem⟩ := h.1
      simp only [dnf]
      split
      · rename_i hempty
        rw [List.isEmpty_iff.mp hempty]
        exact ⟨nnf_tautology, fun h => absurd rfl h, nofun⟩
      · rename_i hne
        -- each alternative of a member is in normal form and neither true nor false
        have halt : ∀ l ∈ (dnfAll cs).map disjuncts, l ≠ [] ∧
            ∀ x ∈ l, x.Nnf ∧ x ≠ tautology ∧ x ≠ contradiction := by
          intro l hl
          rw [dnfAll_eq_map, List.map_map] at hl
          obtain ⟨c, hc, rfl⟩ := List.mem_map.mp hl
          obtain ⟨hnnf, htaut, hcontra⟩ := hall c hc
          have hdnf : c.dnf ≠ contradiction := hcontra (hmem c hc).2
          refine ⟨disjuncts_ne_nil hdnf, fun x hx => ?_⟩
          obtain ⟨hx, hxt, hxc⟩ := nnf_of_mem_disjuncts hnnf hx
          exact ⟨hx, hxt (htaut fun ht => (hmem c hc).1 [] ht), hxc⟩
        -- so is the conjunction of one alternative of each member, which picks from all of them
        have hclause : ∀ t ∈ cartesian ((dnfAll cs).map disjuncts),
            (conj.normalize t).Nnf ∧ conj.normalize t ≠ tautology ∧
              conj.normalize t ≠ contradiction := by
          intro t ht
          have hpicks := (mem_cartesian _ _).mp ht
          refine normalize_nonconstant conj (fun hnil => ?_) fun x hx => ?_
          · have hlen := hpicks.length_eq
            rw [hnil, List.length_map, dnfAll_eq_map, List.length_map] at hlen
            exact hne (by simpa using List.length_eq_zero_iff.mp hlen.symm)
          · obtain ⟨l, hl, hxl⟩ := hpicks.exists_mem x hx
            exact (halt l hl).2 x hxl
        have hprod : cartesian ((dnfAll cs).map disjuncts) ≠ [] :=
          cartesian_ne_nil fun l hl => (halt l hl).1
        obtain ⟨hnnf, htaut, hcontra⟩ :=
          normalize_nonconstant disj (by simpa using hprod) (List.forall_mem_map.mpr hclause)
        exact ⟨hnnf, fun _ => htaut, fun _ => hcontra⟩
  | .not _, h => absurd h.1 id
  | .quant q vs b, h => by
      obtain ⟨hb, hbt, hbc⟩ := nnf_dnf b h.2
      obtain ⟨hvs, hall, hany⟩ := h.1
      exact ⟨⟨⟨hvs, fun hq => hbt (hall hq), fun hq => hbc (hany hq)⟩, hb⟩, fun _ => nofun,
        fun _ => nofun⟩
  | .when p e, h => by
      obtain ⟨hp, hpt, hpc⟩ := nnf_dnf p h.2.1
      obtain ⟨he, het, -⟩ := nnf_dnf e h.2.2
      obtain ⟨hpt', hpc', het'⟩ := h.1
      exact ⟨⟨⟨hpt hpt', hpc hpc', het het'⟩, hp, he⟩, fun _ => nofun, fun _ => nofun⟩
  | .lit _, h => ⟨h, id, id⟩
  | .numEffect _, h => ⟨h, id, id⟩
  | .compare _, h => ⟨h, id, id⟩

theorem nnfAll_dnf : ∀ cs : List Condition, EverywhereAll NnfNode cs → ∀ c ∈ cs,
    c.dnf.Nnf ∧ (c ≠ tautology → c.dnf ≠ tautology) ∧ (c ≠ contradiction → c.dnf ≠ contradiction)
  | [], _ => nofun
  | c :: cs, h => by
      intro x hx
      rcases List.mem_cons.mp hx with hx | hx
      · rw [hx]
        exact nnf_dnf c h.1
      · exact nnfAll_dnf cs h.2 x hx

end

end Negation

/-! ## Main statement -/

/-- Disjunctive normal form keeps every value a condition has. On a negation normal form it has
no explicit negation and is the constant true or in disjunctive normal form, and converting it
again changes nothing. -/
theorem dnf_keeps_values_and_normalizes :
    (∀ (pb : Problem) (holds : String → List String → Bool) (c : Condition) (v : Bool),
        c.evaluate pb holds = some v → c.dnf.evaluate pb holds = some v) ∧
      (∀ d : Condition, (d.simplify false).dnf.NotFree ∧
        ((d.simplify false).dnf = tautology ∨ (d.simplify false).dnf.InDnf fun _ => True)) ∧
      ∀ c : Condition, c.dnf.dnf = c.dnf :=
  ⟨fun _ _ c _ h => evalIn_dnf c h,
    fun d => ⟨notFree_dnf _ (Nnf.notFree (simplify_nnf false d)),
      (dnf_shape _).imp id fun h => h.mono fun _ _ => trivial⟩,
    dnf_dnf⟩

/-- Lamps a or b, and lamps c or d. -/
def twoPairsOfLamps : Condition :=
  .and [
    .or [.lit ⟨"on", [.const ⟨"a", "lamp"⟩], false⟩, .lit ⟨"on", [.const ⟨"b", "lamp"⟩], false⟩],
    .or [.lit ⟨"on", [.const ⟨"c", "lamp"⟩], false⟩, .lit ⟨"on", [.const ⟨"d", "lamp"⟩], false⟩]]

/-- With lamps b and c on, both the condition and its four-way disjunctive normal form hold. -/
theorem two_pairs_of_lamps_keep_value :
    twoPairsOfLamps.evaluate {} (fun _ names => names == ["b"] || names == ["c"]) = some true ∧
      twoPairsOfLamps.dnf.evaluate {} (fun _ names => names == ["b"] || names == ["c"]) =
        some true :=
  have h : twoPairsOfLamps.evaluate {} (fun _ names => names == ["b"] || names == ["c"]) =
      some true := by decide
  ⟨h, dnf_keeps_values_and_normalizes.1 {} _ _ _ h⟩

/-- The normal form of true is the conjunction with no member: a conjunction at the root with
fewer than two members. -/
theorem true_normalizes_to_empty_conjunction :
    ∃ cs, (tautology.simplify false).dnf = .and cs ∧ cs.length < 2 :=
  ⟨[], rfl, by decide⟩

end Condition

end Pddl
