import Idl.Analysis.Definition
import Idl.Grammar
import Idl.Proofs.Except
import Idl.Proofs.Grammar.Significant
import Idl.Proofs.List

/-!
# Method ids that are not used

An id is read whether it is used or not.  So without ids a text is read or refused as with them, the
ids are all that is missing, and what passes the checks with ids passes without, with the same
names.
-/

namespace Idl

open Idl.Parser

/-! ## Erasing ids -/

def Method.withoutId (method : Method) : Method := { method with id := none }

def Service.withoutIds (service : Service) : Service :=
  { service with methods := service.methods.map (·.withoutId) }

def Schema.withoutIds (schema : Schema) : Schema :=
  { schema with services := schema.services.map (·.withoutIds) }

def ServiceStatement.withoutId : ServiceStatement → ServiceStatement
  | method m => method m.withoutId
  | s => s

def Declaration.withoutIds : Declaration → Declaration
  | service s => service s.withoutIds
  | d => d

theorem Service.ofStatements_withoutId (name : Located String) (found : List ServiceStatement) :
    Service.ofStatements name (found.map (·.withoutId)) =
      (Service.ofStatements name found).withoutIds := by
  have hmethods : ∀ current, ServiceStatement.methods current (found.map (·.withoutId)) =
      (ServiceStatement.methods current found).map (·.withoutId) := by
    intro current
    fun_induction ServiceStatement.methods current found with
    | case1 => rfl
    | case2 current mode found ih | case4 current option found ih => exact ih
    | case3 current m found ih => exact congrArg ({ m.withoutId with mode := current } :: ·) ih
  have hoptions : (found.map (·.withoutId)).filterMap (·.option?) =
      found.filterMap (·.option?) := by
    rw [List.filterMap_map]
    exact List.filterMap_congr fun s _ => by cases s <;> rfl
  rw [Service.ofStatements, hmethods, hoptions]
  rfl

theorem Schema.ofDeclarations_withoutIds (name : Located String) (found : List Declaration) :
    Schema.ofDeclarations name (found.map (·.withoutIds)) =
      (Schema.ofDeclarations name found).withoutIds := by
  simp only [ofDeclarations, withoutIds, List.filterMap_map, List.map_filterMap, Schema.mk.injEq,
    true_and]
  refine ⟨?_, ?_, ?_, ?_, ?_, ?_⟩
  all_goals exact List.filterMap_congr fun d _ => by cases d <;> rfl

/-! ## Reading -/

namespace Parser

variable {σ α β : Type} {f : α → β}

theorem map_apply (p : Parser σ α) (tokens : σ) :
    (f <$> p) tokens = (p tokens).map fun found => (f found.1, found.2) := rfl

theorem alike_unchanged_iff {p : Parser σ α} {q : Parser σ β} :
    Alike Shift.unchanged id f p q ↔ q = f <$> p := by
  have hmoved (found : Except (Fault σ) (α × σ)) :
      moved Shift.unchanged id f found = found.map fun found => (f found.1, found.2) := by
    rcases found with (reason | _) | _
    · cases reason <;> rfl
    all_goals simp [moved, Except.map, Fault.carry]
  simp only [Alike, hmoved, id, ← map_apply]
  exact funext_iff.symm

theorem commit_map (p : Parser σ α) : (f <$> p).commit = f <$> p.commit :=
  alike_unchanged_iff.1 (.commit (alike_unchanged_iff.2 rfl))

variable [TokenStream σ]

instance : Carries Shift.unchanged (id : σ → σ) where
  skip _ := rfl
  next? tokens := by cases h : TokenStream.next? (TokenStream.skip tokens) <;> simp [h]; rfl
  remaining _ := rfl

theorem block_map (p : Parser σ α) : block (f <$> p) = List.map f <$> block p :=
  alike_unchanged_iff.1 (.block (alike_unchanged_iff.2 rfl))

theorem declarations_map (p : Parser σ Declaration) (f : Declaration → Declaration) :
    declarations (f <$> p) = List.map f <$> declarations p :=
  alike_unchanged_iff.1 (.declarations (alike_unchanged_iff.2 rfl))

end Parser

variable {σ : Type} [TokenStream σ]

theorem Native.method_withoutId :
    (Native.method ⟨false⟩ : Parser σ Method) = Method.withoutId <$> Native.method ⟨true⟩ := by
  simp [Native.method, ← commit_map, apply_ite (Functor.map Method.withoutId), Method.withoutId]

theorem Protobuf.rpc_withoutId :
    (Protobuf.rpc ⟨false⟩ : Parser σ Method) = Method.withoutId <$> Protobuf.rpc ⟨true⟩ := by
  simp [Protobuf.rpc, ← commit_map, apply_ite (Functor.map Method.withoutId), Method.withoutId]

namespace Native

theorem service_withoutIds :
    (service ⟨false⟩ : Parser σ Service) = Service.withoutIds <$> service ⟨true⟩ := by
  have hstatement : (serviceStatement ⟨false⟩ : Parser σ ServiceStatement) =
      ServiceStatement.withoutId <$> serviceStatement ⟨true⟩ := by
    unfold serviceStatement
    rw [map_bind]
    congr 1
    funext next
    split <;> simp [method_withoutId, ServiceStatement.withoutId]
  unfold service
  rw [hstatement, block_map, map_bind]
  simp [← commit_map, Service.ofStatements_withoutId]

theorem schema_withoutIds :
    (schema ⟨false⟩ : Parser σ Schema) = Schema.withoutIds <$> schema ⟨true⟩ := by
  have hdeclaration : (declaration ⟨false⟩ : Parser σ Declaration) =
      Declaration.withoutIds <$> declaration ⟨true⟩ := by
    unfold declaration
    rw [map_bind]
    congr 1
    funext next
    split <;> simp [service_withoutIds, Declaration.withoutIds]
  unfold schema
  rw [hdeclaration, declarations_map]
  simp [Schema.ofDeclarations_withoutIds]

end Native

namespace Protobuf

theorem service_withoutIds :
    (service ⟨false⟩ : Parser σ Service) = Service.withoutIds <$> service ⟨true⟩ := by
  have hstatement : (serviceStatement ⟨false⟩ : Parser σ ServiceStatement) =
      ServiceStatement.withoutId <$> serviceStatement ⟨true⟩ := by
    unfold serviceStatement
    rw [map_bind]
    congr 1
    funext next
    split <;> first | rfl | simp [rpc_withoutId, ServiceStatement.withoutId]
  unfold service
  rw [hstatement, block_map, map_bind]
  simp [← commit_map, Service.ofStatements_withoutId]

theorem schema_withoutIds :
    (schema ⟨false⟩ : Parser σ Schema) = Schema.withoutIds <$> schema ⟨true⟩ := by
  have hdeclaration : (declaration ⟨false⟩ : Parser σ Declaration) =
      Declaration.withoutIds <$> declaration ⟨true⟩ := by
    unfold declaration
    rw [map_bind]
    congr 1
    funext next
    split <;> first | rfl | simp [service_withoutIds, Declaration.withoutIds]
  unfold schema
  rw [hdeclaration, declarations_map]
  simp [Schema.ofDeclarations_withoutIds]
  rfl

end Protobuf

theorem Dialect.build_withoutIds (dialect : Dialect) (tokens : List (Located Token)) :
    dialect.build ⟨false⟩ tokens = (dialect.build ⟨true⟩ tokens).map Schema.withoutIds := by
  have hgrammar : (dialect.grammar ⟨false⟩ : Parser Tokens Schema) =
      Schema.withoutIds <$> dialect.grammar ⟨true⟩ := by
    cases dialect with
    | native => exact Native.schema_withoutIds
    | protobuf => exact Protobuf.schema_withoutIds
  simp only [build, run, hgrammar, map_apply]
  cases dialect.grammar ⟨true⟩ (⟨tokens⟩ : Tokens) <;> rfl

/-! ## Comments -/

section Comments

variable {m : Type → Type} [Monad m] [LawfulMonad m] (visit : Span → Doc → m Doc)

theorem Schema.traverseDocs_withoutIds (schema : Schema) :
    schema.withoutIds.traverseDocs visit = withoutIds <$> schema.traverseDocs visit := by
  have hmethod (method : Method) :
      method.withoutId.traverseDocs visit = Method.withoutId <$> method.traverseDocs visit := by
    simp [Method.traverseDocs, Method.withoutId]
  have hservice (service : Service) :
      service.withoutIds.traverseDocs visit =
        Service.withoutIds <$> service.traverseDocs visit := by
    simp [Service.traverseDocs, Service.withoutIds, mapM_map_comm hmethod]
  simp [traverseDocs, withoutIds, mapM_map_comm hservice]

end Comments

theorem Schema.attachComments_withoutIds
    (schema : Schema) (source : String) (tokens : List (Located Token)) :
    schema.withoutIds.attachComments source tokens =
      (schema.attachComments source tokens).withoutIds := by
  have hplaces : schema.withoutIds.documentedAt = schema.documentedAt := by
    simp only [documentedAt, traverseDocs_withoutIds]
    rfl
  simp only [attachComments, withDocs, hplaces, traverseDocs_withoutIds]
  rfl

/-! ## Checks -/

/-- The second definition is entered like the first, and passes the checks without ids if the first
passes with ids. -/
structure Definition.Relaxes (d d' : Definition) : Prop where
  define : ∀ scope : Scope, scope.define d' = scope.define d
  check : d.check ⟨true⟩ = .ok () → d'.check ⟨false⟩ = .ok ()

theorem Service.check_without_of_check {service : Service} (h : service.check ⟨true⟩ = .ok ()) :
    service.check ⟨false⟩ = .ok () := by
  simp only [check, bind_eq_ok_iff] at h ⊢
  obtain ⟨_, hmethods, _, hoptions, -⟩ := h
  exact ⟨_, hmethods, _, hoptions, rfl⟩

theorem Service.check_withoutIds (service : Service) :
    service.withoutIds.check ⟨false⟩ = service.check ⟨false⟩ := by
  have hmethods : ∀ (names : Sites String) (methods : List Method),
      checkMethods service.name.value names (methods.map (·.withoutId)) =
        checkMethods service.name.value names methods := by
    intro names methods
    induction methods generalizing names with
    | nil => rfl
    | cons method methods ih =>
      simp only [List.map_cons, checkMethods, ih]
      rfl
  simp only [check, withoutIds, hmethods]
  rfl

theorem Scope.enter_relaxed
    {ds ds' : List Definition} (h : List.Forall₂ Definition.Relaxes ds ds') {scope scope' : Scope}
    (henter : scope.enter ⟨true⟩ ds = (scope', none)) :
    scope.enter ⟨false⟩ ds' = (scope', none) := by
  induction h generalizing scope with
  | nil => exact henter
  | @cons d d' ds ds' hd _ ih =>
    rw [enter] at henter ⊢
    rw [hd.define]
    cases hdefine : scope.define d with
    | error clash => simp [hdefine] at henter
    | ok next =>
      cases hcheck : d.check ⟨true⟩ with
      | error clash => simp [hdefine, hcheck] at henter
      | ok _ =>
        simp only [hdefine, hcheck, hd.check hcheck] at henter ⊢
        exact ih henter

theorem Schema.relaxes_definitions (schema : Schema) :
    List.Forall₂ Definition.Relaxes schema.definitions schema.withoutIds.definitions := by
  have hself (d : Definition) : d.Relaxes d := by
    refine ⟨fun _ => rfl, fun h => ?_⟩
    cases d with
    | enum path body | message path body => exact h
    | service body => exact Service.check_without_of_check h
  have hservices : List.Forall₂ Definition.Relaxes (schema.services.map .service)
      (schema.withoutIds.services.map .service) := by
    rw [withoutIds, List.map_map, List.forall₂_map_left_iff, List.forall₂_map_right_iff]
    refine List.forall₂_same.2 fun service _ => ⟨fun _ => rfl, fun h => ?_⟩
    exact service.check_withoutIds.trans (Service.check_without_of_check h)
  exact List.rel_append (List.forall₂_same.2 fun d _ => hself d) hservices

theorem Program.checkDefinitions_withoutIds
    {file : String} {schema : Schema} {program : Program}
    (h : (ofSchema file schema).checkDefinitions ⟨true⟩ = (program, none)) :
    (ofSchema file schema.withoutIds).checkDefinitions ⟨false⟩ =
      ({ program with schema := schema.withoutIds }, none) := by
  have hoptions : schema.withoutIds.options = schema.options := rfl
  have hprojects : schema.withoutIds.projects = schema.projects := rfl
  simp only [checkDefinitions, ofSchema, hoptions, hprojects] at h ⊢
  split at h
  next => cases h
  next =>
    split at h
    next => cases h
    next scope henter =>
      rw [Scope.enter_relaxed schema.relaxes_definitions henter]
      split at h
      next => cases h
      next hprojects =>
        cases h
        rfl

/-- Without ids a text is read as with them, apart from the ids, or refused for the same reasons,
and what passes the checks with ids passes them without, with the same tables. -/
theorem Dialect.ids_off_erases_ids (dialect : Dialect) (source : String) :
    dialect.parse ⟨false⟩ source = (dialect.parse ⟨true⟩ source).map Schema.withoutIds ∧
      ∀ schema, dialect.parse ⟨true⟩ source = .ok schema → ∀ file program,
        (Program.ofSchema file schema).checkDefinitions ⟨true⟩ = (program, none) →
          (Program.ofSchema file schema.withoutIds).checkDefinitions ⟨false⟩ =
            ({ program with schema := schema.withoutIds }, none) := by
  constructor
  · unfold parse
    cases Lexer.tokenize source.toList with
    | error faults => rfl
    | ok tokens =>
      simp only [bind, Except.bind, dialect.build_withoutIds]
      cases dialect.build ⟨true⟩ tokens with
      | error fault => rfl
      | ok schema => exact congrArg Except.ok (schema.attachComments_withoutIds source tokens)
  · intro schema _ file program h
    exact Program.checkDefinitions_withoutIds h

end Idl
