import PayloadSchema.Proofs.Compile.Description
import PayloadSchema.Proofs.Compile.Nesting

/-! # Lazy shapes and cycles

A lazy shape refers back to a message that the route to it leads through, and so it closes a
cycle of references.  Where there is none, every message that references lead to was compiled in
place, further inside the rule; a cycle would have compiled some message inside itself.  The rule
of a message is therefore free of lazy shapes exactly if its references do not lead into a cycle. -/

namespace PayloadSchema

/-- Whether references lead from a message to one that refers back to itself. -/
def Catalog.LeadsToCycle (catalog : Catalog) (root : catalog.Listed) : Prop :=
  ∃ message, Relation.ReflTransGen catalog.Refers root message ∧
    Relation.TransGen catalog.Refers message message

section

variable {catalog : Catalog} {options : Options} {active : List MessageId}
  {target : catalog.Listed} {rule : RecordRule}

namespace CompiledInside

/-- What a lazy shape refers to was being compiled already, and is referred to from where the
    shape stands. -/
theorem target_of_lazy (inside : CompiledInside catalog options active target rule)
    {message : String} {id : MessageId} (holds : rule.Holds (.lazy message id)) :
    ∃ next, catalog.Refers target next ∧ next.1.id ∈ target.1.id :: active ∧
      next.1.id = id ∧ next.1.message.name = message := by
  obtain ⟨next, refers, image⟩ := inside.reference_of_holds holds rfl
  cases image with
  | deferred waiting => exact ⟨next, refers, waiting, rfl, rfl⟩

/-- In the rule of a message that is compiled with nothing around it, a lazy shape refers to a
    message on the route to it, and back from its end. -/
theorem back_reference (identified : catalog.Identified)
    (inside : CompiledInside catalog options [] target rule) {rules : List RecordRule}
    {innermost : RecordRule} (route : rule.Route rules innermost) {message : String} {id : MessageId}
    (holds : innermost.Holds (.lazy message id)) :
    ∃ messages last outer next, Stem catalog options messages rules ∧
      Thread catalog [] target messages last outer ∧ next ∈ messages ∧
      catalog.Refers last next ∧ next.1.id = id ∧ next.1.message.name = message := by
  obtain ⟨messages, last, outer, stem, thread, deepest⟩ := inside.thread route
  obtain ⟨next, refers, waiting, same, named⟩ := deepest.target_of_lazy holds
  -- Nothing waited around the message, so that whatever waits at the end is on the route.
  rcases thread.waits next.1.id waiting with outside | ⟨other, among, equal⟩
  · cases outside
  · obtain rfl := identified.eq_of_id equal
    exact ⟨messages, last, outer, other, stem, thread, among, refers, same, named⟩

theorem leadsToCycle_of_lazy (identified : catalog.Identified)
    (inside : CompiledInside catalog options [] target rule) {message : String} {id : MessageId}
    (lazily : (Shape.lazy message id).Within (.record rule)) : catalog.LeadsToCycle target := by
  rcases RecordRule.within_iff_route.mp lazily with same | ⟨rules, innermost, route, holds⟩
  · cases same
  · obtain ⟨messages, last, outer, next, _, thread, among, refers, _⟩ :=
      inside.back_reference identified route holds
    obtain ⟨reached, onward⟩ := thread.between next among
    exact ⟨next, reached, .tail' onward refers⟩

theorem step (inside : CompiledInside catalog options active target rule)
    (eager : ∀ message id, ¬ (Shape.lazy message id).Within (.record rule))
    {next : catalog.Listed} (refers : catalog.Refers target next) :
    ∃ inner, CompiledInside catalog options (target.1.id :: active) next inner ∧
      (Shape.record inner).Within (.record rule) := by
  obtain ⟨part, holds, image⟩ := inside.holds_of_refers refers
  cases image with
  | entered compiled => exact ⟨_, compiled, holds.within⟩
  | deferred waiting => exact absurd holds.within (eager _ _)

/-- So was every message that references lead to, with all those around it that were there
    before. -/
theorem steps (inside : CompiledInside catalog options active target rule)
    (eager : ∀ message id, ¬ (Shape.lazy message id).Within (.record rule))
    {last : catalog.Listed} (led : Relation.ReflTransGen catalog.Refers target last) :
    ∃ outer inner, active ⊆ outer ∧ CompiledInside catalog options outer last inner ∧
      (Shape.record inner).Within (.record rule) := by
  -- Step by step from the message, so that every step goes on from where the last one led.
  induction led with
  | refl => exact ⟨active, rule, List.Subset.refl active, inside, .whole⟩
  | tail _ refers inductionHypothesis =>
    obtain ⟨outer, inner, grown, compiled, within⟩ := inductionHypothesis
    obtain ⟨next, entered, deeper⟩ :=
      compiled.step (fun message id lazily => eager message id (lazily.trans within)) refers
    exact ⟨_, next, List.subset_cons_of_subset _ grown, entered, deeper.trans within⟩

theorem not_leadsToCycle (inside : CompiledInside catalog options active target rule)
    (eager : ∀ message id, ¬ (Shape.lazy message id).Within (.record rule)) :
    ¬ catalog.LeadsToCycle target := by
  rintro ⟨message, led, cycle⟩
  obtain ⟨outer, inner, _, compiled, within⟩ := inside.steps eager led
  have innerEager : ∀ message id, ¬ (Shape.lazy message id).Within (.record inner) :=
    fun message id lazily => eager message id (lazily.trans within)
  obtain ⟨next, refers, back⟩ := Relation.TransGen.head'_iff.mp cycle
  obtain ⟨first, entered, deeper⟩ := compiled.step innerEager refers
  obtain ⟨around, again, grown, inside, _⟩ :=
    entered.steps (fun message id lazily => innerEager message id (lazily.trans deeper)) back
  -- The message would have been entered once more while it was still being compiled.
  exact inside.not_waiting (grown List.mem_cons_self)

theorem lazy_iff_leadsToCycle (identified : catalog.Identified)
    (inside : CompiledInside catalog options [] target rule) :
    (∃ message id, (Shape.lazy message id).Within (.record rule)) ↔
      catalog.LeadsToCycle target := by
  constructor
  · rintro ⟨message, id, lazily⟩
    exact inside.leadsToCycle_of_lazy identified lazily
  · intro cycle
    by_contra none
    exact inside.not_leadsToCycle (fun message id lazily => none ⟨message, id, lazily⟩) cycle

end CompiledInside

end

theorem RecordRule.exists_needs_iff {definitions : Definitions} {rule : RecordRule} :
    (∃ id, rule.Needs definitions id) ↔
      ∃ message id, (Shape.lazy message id).Within (.record rule) := by
  constructor
  · rintro ⟨id, needed⟩
    induction needed with
    | inside inside => exact ⟨_, _, inside⟩
    | behind _ _ _ inductionHypothesis => exact inductionHypothesis
  · rintro ⟨message, id, inside⟩
    exact ⟨id, .inside inside⟩

theorem Validator.Grounded.recursive_eq_nil_iff {validator : Validator}
    (grounded : validator.Grounded) :
    validator.recursive = [] ↔
      ¬ ∃ message id, (Shape.lazy message id).Within (.record validator.rule) := by
  have needs := @RecordRule.exists_needs_iff validator.definitions validator.rule
  rw [← needs, not_exists, ← List.map_eq_nil_iff (f := Prod.fst), List.eq_nil_iff_forall_not_mem]
  exact forall_congr' fun id => not_congr grounded.mem_recursive_keys_iff

namespace Schema

variable {schema : Schema} {options : Options} {registry : Registry}

/-- In the rule of a top-level message every lazy shape refers to a message that the route to it
    leads through.  There is one exactly if references lead from the message into a cycle, and
    otherwise its validator lists no definitions. -/
theorem compile_cycles (compiled : schema.compile options = .ok registry)
    {root : (Catalog.ofSchema schema).Listed} (top : root ∈ (Catalog.ofSchema schema).topLevel) :
    ∃ validator, registry.get? root.1.message.name = some validator ∧
      (∀ rules innermost, validator.rule.Route rules innermost →
        ∀ message id, innermost.Holds (.lazy message id) →
          ∃ messages, messages.head? = some root ∧
            Stem (Catalog.ofSchema schema) options messages rules ∧
            ∃ next ∈ messages, next.1.id = id ∧ next.1.message.name = message) ∧
      ((∃ message id, (Shape.lazy message id).Within (.record validator.rule)) ↔
        (Catalog.ofSchema schema).LeadsToCycle root) ∧
      (validator.recursive = [] ↔ ¬ (Catalog.ofSchema schema).LeadsToCycle root) := by
  have identified := Catalog.ofSchema_identified schema
  obtain ⟨validator, listed, found, inside⟩ := compiled_of_root compiled top
  have cycles := inside.lazy_iff_leadsToCycle identified
  refine ⟨validator, found, fun rules innermost route message id holds => ?_, cycles, ?_⟩
  · obtain ⟨messages, _, _, next, stem, thread, among, _, same, named⟩ :=
      inside.back_reference identified route holds
    exact ⟨messages, thread.first, stem, next, among, same, named⟩
  · rw [← cycles]
    exact (grounded_of_mem compiled listed).recursive_eq_nil_iff

def deliveries : Schema where
  messages := [
    { name := "Contact", fields := [{ name := "mail", typeName := "string" }] },
    { name := "Place", fields := [{ name := "keeper", typeName := "Contact", required := true }] },
    { name := "Delivery"
      fields := [
        { name := "start", typeName := "Place" },
        { name := "stops", typeName := "Place", repeated := true },
        { name := "carrier", typeName := "Contact" }] }]

theorem exists_root_of_lazyIds (schema : Schema) (name : String) (ids : List MessageId)
    (declared : (Catalog.ofSchema schema).topLevel.any (·.1.message.name = name) = true)
    (evaluated : (schema.compile {}).toOption.bind (fun registry =>
      (registry.get? name).map (·.rule.lazyIds)) = some ids) :
    ∃ registry, schema.compile {} = .ok registry ∧
      ∃ root ∈ (Catalog.ofSchema schema).topLevel, root.1.message.name = name ∧
        ∀ validator, registry.get? root.1.message.name = some validator →
          validator.rule.lazyIds = ids := by
  obtain ⟨registry, succeeded, served⟩ := Option.bind_eq_some_iff.mp evaluated
  obtain ⟨root, top, named⟩ := List.any_eq_true.mp declared
  rw [decide_eq_true_eq] at named
  refine ⟨registry, toOption_eq_some_iff.mp succeeded, root, top, named, fun validator found => ?_⟩
  rw [← named, found, Option.map_some] at served
  exact Option.some.inj served

/-- Persons lead into a cycle of references, and deliveries do not, although they share
    messages. -/
theorem person_cycles :
    (∃ root ∈ (Catalog.ofSchema accounts).topLevel, root.1.message.name = "Person" ∧
      (Catalog.ofSchema accounts).LeadsToCycle root) ∧
    ∃ root ∈ (Catalog.ofSchema deliveries).topLevel, root.1.message.name = "Delivery" ∧
      ¬ (Catalog.ofSchema deliveries).LeadsToCycle root := by
  constructor
  · obtain ⟨registry, compiled, root, top, named, evaluated⟩ :=
      exists_root_of_lazyIds accounts "Person" [1, 1] (by decide +kernel) (by decide +kernel)
    obtain ⟨validator, found, _, cycles, _⟩ := compile_cycles compiled top
    have lazily : validator.rule.lazyIds ≠ [] := by rw [evaluated validator found]; decide
    exact ⟨root, top, named, cycles.mp (RecordRule.lazyIds_ne_nil_iff.mp lazily)⟩
  · obtain ⟨registry, compiled, root, top, named, evaluated⟩ :=
      exists_root_of_lazyIds deliveries "Delivery" [] (by decide +kernel) (by decide +kernel)
    obtain ⟨validator, found, _, cycles, _⟩ := compile_cycles compiled top
    refine ⟨root, top, named, fun cycle => ?_⟩
    exact RecordRule.lazyIds_ne_nil_iff.mpr (cycles.mpr cycle) (evaluated validator found)

end Schema

end PayloadSchema
