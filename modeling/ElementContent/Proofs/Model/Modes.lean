import ElementContent.Proofs.Attribution.Earliest
import ElementContent.Proofs.Model.Compile

/-!
# The check of attribution leaves the model alone

A declaration is compiled in one of two ways. Where attribution is checked, an automaton is built in
any case, and its conflicts are looked at before the model is given out. Where it is not, an
automaton is built only if the model needs one. The model is the same either way.

- `Declaration.model`: the model of a declaration when nothing is checked.
- `compile_of_not_checks`, `compile_of_checks`: the two ways.
- `compile_modes_agree`: what the mode of attribution changes, and what it does not.
-/

namespace ElementContent

variable {d : Declaration} {o : CompileOptions} {table : Option NameTable} {a : Automaton}

/-- The model that needs no automaton, where there is one that is wanted, and otherwise the
automaton. -/
def Declaration.model (d : Declaration) (o : CompileOptions) : Except Error Model :=
  match Model.shortcut? d o.wantDirect o.wantMixed with
  | some m => .ok m
  | none => (d.automaton o.limits).map .automaton

/-- Where there is an automaton, there is a model. -/
theorem Declaration.model_of_automaton (h : d.automaton o.limits = .ok a) :
    d.model o = .ok ((Model.shortcut? d o.wantDirect o.wantMixed).getD (.automaton a)) := by
  unfold model
  cases Model.shortcut? d o.wantDirect o.wantMixed with
  | none => rw [h]; rfl
  | some m => rfl

/-- Without conflicts the model is given out in every mode. -/
theorem settle_nil (o : CompileOptions) (m : Model) : settle o m [] = .ok ⟨m, []⟩ :=
  if_neg fun h => h.2 rfl

/-- Where attribution is not checked, the model is all there is. -/
theorem compile_of_not_checks (h : o.checksAttribution = false) (table : Option NameTable) :
    compile d o table = (d.model o).map fun m => ⟨m, []⟩ := by
  unfold compile Declaration.model
  cases Model.shortcut? d o.wantDirect o.wantMixed with
  | some m => simp [h, Except.map]
  | none => cases d.automaton o.limits <;> simp [h, settle_nil, bind, Except.bind, Except.map]

/-- Where attribution is checked, an automaton is built whatever the model is. -/
theorem compile_of_checks (h : o.checksAttribution = true) (table : Option NameTable) :
    compile d o table = (d.automaton o.limits).bind fun a =>
      settle o ((Model.shortcut? d o.wantDirect o.wantMixed).getD (.automaton a))
        (a.conflicts d table) := by
  unfold compile
  cases Model.shortcut? d o.wantDirect o.wantMixed with
  | some m => simp [h, bind]
  | none => simp [h, bind]

/-! ## The three modes -/

/-- Attribution is checked in no mode, or it is a schema and attribution is checked in every mode but
one. -/
theorem checksAttribution_cases (o : CompileOptions) :
    (∀ mode, { o with attribution := mode }.checksAttribution = false) ∨
      o.kind = .schema ∧ ∀ mode, mode ≠ .off →
        { o with attribution := mode }.checksAttribution = true := by
  unfold CompileOptions.checksAttribution
  cases o.kind with
  | dtd => exact .inl fun _ => rfl
  | schema => exact .inr ⟨rfl, fun mode h => by cases mode <;> simp at h ⊢⟩

/-- A declaration that compiles with its conflicts listed compiles to the same model without the
check, and also where conflicts are errors, if there are none. -/
theorem compile_of_report_eq_ok {c : CompiledModel}
    (h : compile d { o with attribution := .report } table = .ok c) :
    compile d { o with attribution := .off } table = .ok ⟨c.model, []⟩ ∧
      compile d { o with attribution := .strict } table =
        if c.conflicts = [] then .ok ⟨c.model, []⟩ else .error (.attribution c.conflicts) := by
  have hoff : compile d { o with attribution := .off } table = (d.model o).map fun m => ⟨m, []⟩ :=
    compile_of_not_checks (by simp [CompileOptions.checksAttribution]) table
  rcases checksAttribution_cases o with hnone | ⟨-, hsome⟩
  · -- nothing is checked in any mode
    have hmode : ∀ mode, compile d { o with attribution := mode } table =
        (d.model o).map fun m => ⟨m, []⟩ := fun mode => compile_of_not_checks (hnone mode) table
    rw [hmode .report] at h
    rw [hmode .off, hmode .strict]
    cases hm : d.model o with
    | error e => rw [hm] at h; cases h
    | ok m =>
      rw [hm] at h
      obtain rfl := Except.ok.inj h
      exact ⟨rfl, rfl⟩
  · rw [compile_of_checks (hsome .report (by decide))] at h
    rw [hoff, compile_of_checks (hsome .strict (by decide))]
    cases ha : d.automaton o.limits with
    | error e => rw [ha] at h; cases h
    | ok a =>
      rw [ha] at h
      obtain rfl := Except.ok.inj h
      rw [Declaration.model_of_automaton ha]
      refine ⟨rfl, ?_⟩
      by_cases hconflicts : a.conflicts d table = []
      · simp [Except.bind, settle, hconflicts]
      · simp [Except.bind, settle, hconflicts]

/-- A declaration that does not compile with its conflicts listed does not compile where they are
errors, for the same reason. -/
theorem compile_of_report_eq_error {e : Error}
    (h : compile d { o with attribution := .report } table = .error e) :
    compile d { o with attribution := .strict } table = .error e := by
  rcases checksAttribution_cases o with hnone | ⟨-, hsome⟩
  · rw [compile_of_not_checks (hnone .report)] at h
    rw [compile_of_not_checks (hnone .strict)]
    exact h
  · rw [compile_of_checks (hsome .report (by decide))] at h
    rw [compile_of_checks (hsome .strict (by decide))]
    cases ha : d.automaton o.limits with
    | error e' => rw [ha] at h; exact h
    | ok a => rw [ha] at h; cases h

/-- In a schema, what is listed does not depend on the models that are wanted. -/
theorem conflicts_of_schema (h : o.kind = .schema) (wantDirect wantMixed : Bool) :
    (compile d { o with attribution := .report, wantDirect, wantMixed } table).map (·.conflicts) =
      (d.automaton o.limits).map fun a => a.conflicts d table := by
  rw [compile_of_checks (by simp [CompileOptions.checksAttribution, h])]
  cases d.automaton o.limits with
  | error e => rfl
  | ok a => rfl

/-- In a document type definition, nothing is listed. -/
theorem conflicts_of_dtd {c : CompiledModel} (h : o.kind = .dtd) (hc : compile d o table = .ok c) :
    c.conflicts = [] := by
  rw [compile_of_not_checks (by simp [CompileOptions.checksAttribution, h])] at hc
  cases hm : d.model o with
  | error e => rw [hm] at hc; cases hc
  | ok m =>
    rw [hm] at hc
    obtain rfl := Except.ok.inj hc
    rfl

/-- The mode of attribution changes nothing but what becomes of conflicts. A declaration that
compiles with its conflicts listed compiles to the same model where they are not looked for, and
where they are errors it compiles to that model if there are none and otherwise fails with what was
listed. One that does not compile fails in the same way where conflicts are errors. In a schema the
list does not depend on the models that are wanted; in a document type definition it is empty. -/
theorem compile_modes_agree (d : Declaration) (o : CompileOptions) (table : Option NameTable) :
    (∀ c, compile d { o with attribution := .report } table = .ok c →
      compile d { o with attribution := .off } table = .ok ⟨c.model, []⟩ ∧
      compile d { o with attribution := .strict } table =
        if c.conflicts = [] then .ok ⟨c.model, []⟩ else .error (.attribution c.conflicts)) ∧
    (∀ e, compile d { o with attribution := .report } table = .error e →
      compile d { o with attribution := .strict } table = .error e) ∧
    (o.kind = .schema → ∀ wantDirect wantMixed,
      (compile d { o with attribution := .report, wantDirect, wantMixed } table).map
          (·.conflicts) =
        (compile d { o with attribution := .report } table).map (·.conflicts)) ∧
    (o.kind = .dtd → ∀ mode c, compile d { o with attribution := mode } table = .ok c →
      c.conflicts = []) :=
  ⟨fun _ => compile_of_report_eq_ok, fun _ => compile_of_report_eq_error,
    fun h wantDirect wantMixed => (conflicts_of_schema h wantDirect wantMixed).trans
      (conflicts_of_schema h o.wantDirect o.wantMixed).symm,
    fun h _ _ => conflicts_of_dtd h⟩

theorem compile_modes_agree_twinContent : ∃ c,
    compile twinContent { kind := .schema, attribution := .report } none = .ok c ∧
    c.conflicts ≠ [] ∧
    compile twinContent { kind := .schema, attribution := .off } none = .ok ⟨c.model, []⟩ ∧
    compile twinContent { kind := .schema, attribution := .strict } none =
      .error (.attribution c.conflicts) := by
  obtain ⟨a, m, ha, hm, c, hc, -⟩ := exists_conflict_twinContent
  have hauto : twinContent.automaton .standard = .ok m :=
    Declaration.automaton_eq_ok_iff.2 ⟨a, ha, hm⟩
  have hsome : m.conflicts twinContent none ≠ [] := List.ne_nil_of_mem hc
  have hreport : compile twinContent { kind := .schema, attribution := .report } none =
      .ok ⟨(Model.shortcut? twinContent true true).getD (.automaton m),
        m.conflicts twinContent none⟩ := by
    rw [compile_of_checks rfl, hauto]
    simp [Except.bind, settle]
  obtain ⟨hoff, hstrict⟩ :=
    (compile_modes_agree twinContent { kind := .schema } none).1 _ hreport
  exact ⟨_, hreport, hsome, hoff, hstrict.trans (if_neg hsome)⟩

end ElementContent
