import Idl.Proofs.Grammar.Order

/-!
# Places of method ids

In either dialect, no two ids of the methods of a service are written at the same place: the main
statement.
-/

namespace Idl

open Idl.Parser

/-- The ids of the methods are written at different places. -/
def Service.IdsApart (service : Service) : Prop :=
  service.methods.Pairwise fun m m' => ∀ s, Layout.id.At m s → ¬Layout.id.At m' s

theorem Service.idsApart_of_inOrder
    {service : Service} {M : Layout Method} (hM : ∀ m s, Layout.id.At m s → M.At m s)
    (h : M.InOrder service.methods) : service.IdsApart :=
  h.pairwise.imp fun hbefore s hs hs' =>
    Nat.lt_irrefl _ (hbefore s s (hM _ s hs) (hM _ s hs'))

theorem Protobuf.draws_rpc (config : ParseConfig) : Draws Layout.id (rpc config) := by
  intro stop lo
  refine .after fun _ => .commit (.after fun name => .after fun _ =>
    .after fun request => .after fun _ => .after fun _ =>
    .after fun _ => .after fun reply => .after fun _ =>
    .after fun equals => .join_id fun mid id hmid hid => .after fun brace => ?_)
  extract_lets jp
  have hjp (options : List OptionDecl) : (jp options).Lays stop mid (Layout.id.Lies lo) := by
    refine .after fun _ => .pure fun hi hhi => ⟨?_, trivial⟩
    rintro _ ⟨value, hvalue, rfl⟩
    exact (hid value (Method.mem_of_kept hvalue)).wider (Nat.le_refl _) hhi
  cases brace <;> exact .after hjp

theorem Protobuf.draws_service (config : ParseConfig) :
    Draws ⟨fun _ _ => False, Service.IdsApart⟩ (service config) := by
  have hstatement : Draws (Layout.serviceStatement .id (.places fun _ _ => False))
      (serviceStatement config) := by
    intro stop lo
    refine .after fun next => ?_
    split
    · exact .after fun _ => .pure fun _ _ => ⟨fun _ => False.elim, trivial⟩
    · exact (draws_rpc config).map (fun _ _ => id) fun _ => id
    · exact fun _ _ _ _ _ h => by cases h
  intro stop lo
  refine .after fun _ => .commit (.after fun name => ?_)
  exact (hstatement.block _ _).bind fun mid found _ hfound => .pure fun _ _ =>
    ⟨fun _ => False.elim, Service.idsApart_of_inOrder (fun _ _ => id)
      (ServiceStatement.inOrder_methods (fun _ _ _ => id) (fun _ _ => id) hfound.sorted _)⟩

/-- What is known of services where tokens stand one behind the other. -/
def Facts.idsApart : Facts where
  name _ := True
  option _ := True
  field _ := True
  service := Service.IdsApart
  project _ := True

theorem Dialect.ensures_idsApart
    {stop : Nat} {source : List (Located Token)} (hsource : Ascending stop source)
    (config : ParseConfig) (dialect : Dialect) : dialect.Ensures config source Facts.idsApart := by
  cases dialect with
  | native =>
    refine ⟨fun _ => .any _, .any _, .any _, ?_, .any _, .any _, .any _⟩
    exact ((Native.draws_service config).within hsource).mono fun _ h =>
      Service.idsApart_of_inOrder (M := Layout.method) (fun _ _ => Or.inr) h.1
  | protobuf =>
    exact ⟨.any _, ⟨.any _, .all fun _ _ _ => trivial⟩, .any _,
      (Protobuf.draws_service config).within hsource, trivial, .any _, .any _⟩

theorem Service.idsApart_undocumented_iff (service : Service) :
    (service.relabel .undocumented).IdsApart ↔ service.IdsApart := by
  simp [IdsApart, Service.relabel, List.pairwise_map, Layout.id, Layout.places, Method.relabel,
    Located.relabel_undocumented]

/-- In a service that was read from a text, no two ids are written at the same place. -/
theorem idsApart_of_parse
    {dialect : Dialect} {config : ParseConfig} {source : String} {schema : Schema}
    (h : dialect.parse config source = .ok schema) : ∀ s ∈ schema.services, s.IdsApart := by
  obtain ⟨tokens, built, docs, htokens, hbuild, rfl⟩ := Dialect.exists_of_parse h
  obtain ⟨stop, hsource⟩ := Lexer.exists_ascending htokens
  refine (Schema.withDocs_iff (P := fun schema => ∀ s ∈ schema.services, s.IdsApart)
    (fun schema => ?_) built docs).2
      (Dialect.follows_of_build hbuild (dialect.ensures_idsApart hsource config)).services
  simp only [Schema.relabel, List.forall_mem_map, Service.idsApart_undocumented_iff]

end Idl
