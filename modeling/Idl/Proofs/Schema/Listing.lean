import Idl.Proofs.Schema.Tree
import Idl.Schema.Documented

/-!
# Comments of a schema in a list

The declarations of a schema that can carry comments, each with the place of its name and with its
comments, make one list.  The traversal of a schema visits the entries of this list in order, so the
places that it finds are those of the list, and comments that are given out go to its entries.
-/

namespace Idl

open List

/-! ## Entries -/

/-- The place of a name, and the comments of what it names. -/
abbrev DocEntry := Span × Doc

def OptionDecl.documented (option : OptionDecl) : List DocEntry := [(option.key.span, option.doc)]

def EnumValue.documented (value : EnumValue) : List DocEntry := [(value.name.span, value.doc)]

def EnumDef.documented (enum : EnumDef) : List DocEntry :=
  (enum.name.span, enum.doc) ::
    (enum.values.flatMap (·.documented) ++ enum.options.flatMap (·.documented))

def Field.documented (field : Field) : List DocEntry :=
  (field.name.span, field.doc) :: field.options.flatMap (·.documented)

namespace Message

mutual

def documented : Message → List DocEntry
  | ⟨name, doc, fields, messages, enums, options⟩ =>
    (name.span, doc) :: (fields.flatMap (·.documented) ++ (options.flatMap (·.documented) ++
      (enums.flatMap (·.documented) ++ allDocumented messages)))

def allDocumented : List Message → List DocEntry
  | [] => []
  | message :: messages => message.documented ++ allDocumented messages

end

theorem allDocumented_eq_flatMap (messages : List Message) :
    allDocumented messages = messages.flatMap (·.documented) := by
  induction messages with
  | nil => rfl
  | cons message messages ih => rw [allDocumented, ih, flatMap_cons]

theorem documented_eq (m : Message) :
    m.documented = (m.name.span, m.doc) :: (m.fields.flatMap (·.documented) ++
      (m.options.flatMap (·.documented) ++ (m.enums.flatMap (·.documented) ++
        m.messages.flatMap (·.documented)))) := by
  obtain ⟨name, doc, fields, messages, enums, options⟩ := m
  rw [documented, allDocumented_eq_flatMap]

end Message

def Method.documented (method : Method) : List DocEntry :=
  (method.name.span, method.doc) :: method.options.flatMap (·.documented)

def Service.documented (service : Service) : List DocEntry :=
  (service.name.span, service.doc) ::
    (service.options.flatMap (·.documented) ++ service.methods.flatMap (·.documented))

def ProjectArea.documented (area : ProjectArea) : List DocEntry :=
  area.options.flatMap (·.documented)

def Project.documented (project : Project) : List DocEntry :=
  (project.name.span, project.doc) :: project.areas.flatMap (·.documented)

def Import.documented (item : Import) : List DocEntry := [(item.file.span, item.doc)]

/-- The package, then imports, options, enums, messages, services and projects, each with what is
in it. -/
def Schema.documented (schema : Schema) : List DocEntry :=
  (schema.package.name.span, schema.package.doc) ::
    (schema.imports.flatMap (·.documented) ++ (schema.options.flatMap (·.documented) ++
      (schema.enums.flatMap (·.documented) ++ (Message.allDocumented schema.messages ++
        (schema.services.flatMap (·.documented) ++ schema.projects.flatMap (·.documented))))))

/-! ## Visits -/

section Visits

variable {σ α β : Type} {visit : Span → Doc → StateM σ Doc}

def visitAll (visit : Span → Doc → StateM σ Doc) (entries : List DocEntry) : StateM σ (List Doc) :=
  entries.mapM fun entry => visit entry.1 entry.2

/-- The computation visits the entries in order, and what it makes has the comments that are found
there. -/
def Lists
    (visit : Span → Doc → StateM σ Doc) (x : StateM σ α) (entries : List DocEntry)
    (Q : α → List DocEntry → Prop) : Prop :=
  ∀ s, ∃ a s' found, x s = (a, s') ∧ visitAll visit entries s = (found.map (·.2), s') ∧
    found.map (·.1) = entries.map (·.1) ∧ Q a found

namespace Lists

variable {x : StateM σ α} {f : α → StateM σ β} {entries entries' : List DocEntry}
  {Q : α → List DocEntry → Prop} {R : β → List DocEntry → Prop}

theorem pure {a : α} (h : Q a []) : Lists visit (Pure.pure a) [] Q :=
  fun s => ⟨a, s, [], rfl, rfl, rfl, h⟩

theorem entry (span : Span) (doc : Doc) :
    Lists visit (visit span doc) [(span, doc)] fun doc found => found = [(span, doc)] :=
  fun s => ⟨(visit span doc s).1, (visit span doc s).2, [(span, (visit span doc s).1)], rfl, rfl,
    rfl, rfl⟩

theorem visitAll_append (entries entries' : List DocEntry) :
    visitAll visit (entries ++ entries') = do
      let found ← visitAll visit entries
      let found' ← visitAll visit entries'
      return found ++ found' := by
  rw [visitAll, mapM_append]
  rfl

theorem bind
    (hx : Lists visit x entries Q)
    (hf : ∀ a found, Q a found → Lists visit (f a) entries' fun b found' => R b (found ++ found')) :
    Lists visit (x >>= f) (entries ++ entries') R := by
  intro s
  obtain ⟨a, s', found, hxs, hvisits, hplaces, hQ⟩ := hx s
  obtain ⟨b, s'', found', hfs, hvisits', hplaces', hR⟩ := hf a found hQ s'
  refine ⟨b, s'', found ++ found', ?_, ?_, ?_, hR⟩
  · have hbind : (x >>= f) s = f (x s).1 (x s).2 := rfl
    rw [hbind, hxs, hfs]
  · rw [visitAll_append]
    have hbind : (do
        let found ← visitAll visit entries
        let found' ← visitAll visit entries'
        return found ++ found' : StateM σ (List Doc)) s =
      ((visitAll visit entries s).1 ++ (visitAll visit entries' (visitAll visit entries s).2).1,
        (visitAll visit entries' (visitAll visit entries s).2).2) := rfl
    rw [hbind, hvisits, hvisits', map_append]
  · rw [map_append, map_append, hplaces, hplaces']

theorem last {g : α → β} (hx : Lists visit x entries Q)
    (hg : ∀ a found, Q a found → R (g a) found) :
    Lists visit (x >>= fun a => Pure.pure (g a)) entries R := by
  have hbind : Lists visit (x >>= fun a => Pure.pure (g a)) (entries ++ []) R :=
    hx.bind fun a found hQ => .pure (by rw [append_nil]; exact hg a found hQ)
  rwa [append_nil] at hbind

theorem mapM
    {γ : Type} {f : γ → StateM σ γ} {e : γ → List DocEntry} {xs : List γ}
    (h : ∀ x ∈ xs, Lists visit (f x) (e x) fun y found => e y = found) :
    Lists visit (xs.mapM f) (xs.flatMap e) fun ys found => ys.flatMap e = found := by
  induction xs with
  | nil => exact .pure rfl
  | cons x xs ih =>
    obtain ⟨hx, hxs⟩ := forall_mem_cons.1 h
    rw [mapM_cons, flatMap_cons]
    refine hx.bind fun y found hy => (ih hxs).last fun ys found' hys => ?_
    rw [flatMap_cons, hy, hys]

end Lists

variable (visit)

theorem OptionDecl.lists (option : OptionDecl) :
    Lists visit (option.traverseDocs visit) option.documented fun option' found =>
      option'.documented = found :=
  (Lists.entry _ _).last fun _ _ hfound => hfound.symm

theorem EnumValue.lists (value : EnumValue) :
    Lists visit (value.traverseDocs visit) value.documented fun value' found =>
      value'.documented = found :=
  (Lists.entry _ _).last fun _ _ hfound => hfound.symm

theorem EnumDef.lists (enum : EnumDef) :
    Lists visit (enum.traverseDocs visit) enum.documented fun enum' found =>
      enum'.documented = found := by
  refine (Lists.entry _ _).bind fun doc _ hdoc => ?_
  refine (Lists.mapM fun value _ => value.lists visit).bind fun values _ hvalues => ?_
  refine (Lists.mapM fun option _ => option.lists visit).last fun options _ hoptions => ?_
  rw [hdoc, ← hvalues, ← hoptions]
  rfl

theorem Field.lists (field : Field) :
    Lists visit (field.traverseDocs visit) field.documented fun field' found =>
      field'.documented = found := by
  refine (Lists.entry _ _).bind fun doc _ hdoc => ?_
  refine (Lists.mapM fun option _ => option.lists visit).last fun options _ hoptions => ?_
  rw [hdoc, ← hoptions]
  rfl

mutual

theorem Message.lists : ∀ message : Message,
    Lists visit (message.traverseDocs visit) message.documented fun message' found =>
      message'.documented = found
  | ⟨name, doc, fields, messages, enums, options⟩ => by
    rw [Message.traverseDocs, Message.documented]
    refine (Lists.entry _ _).bind fun doc _ hdoc => ?_
    refine (Lists.mapM fun field _ => field.lists visit).bind fun fields _ hfields => ?_
    refine (Lists.mapM fun option _ => option.lists visit).bind fun options _ hoptions => ?_
    refine (Lists.mapM fun enum _ => enum.lists visit).bind fun enums _ henums => ?_
    refine (Message.allLists messages).last fun messages _ hmessages => ?_
    rw [hdoc, ← hfields, ← hoptions, ← henums, ← hmessages, Message.documented]
    rfl

theorem Message.allLists : ∀ messages : List Message,
    Lists visit (Message.traverseAllDocs visit messages) (Message.allDocumented messages)
      fun messages' found => Message.allDocumented messages' = found
  | [] => by
    rw [Message.traverseAllDocs, Message.allDocumented]
    exact .pure rfl
  | message :: messages => by
    rw [Message.traverseAllDocs, Message.allDocumented]
    refine (Message.lists message).bind fun message _ hmessage => ?_
    refine (Message.allLists messages).last fun messages _ hmessages => ?_
    rw [Message.allDocumented, hmessage, hmessages]

end

theorem Method.lists (method : Method) :
    Lists visit (method.traverseDocs visit) method.documented fun method' found =>
      method'.documented = found := by
  refine (Lists.entry _ _).bind fun doc _ hdoc => ?_
  refine (Lists.mapM fun option _ => option.lists visit).last fun options _ hoptions => ?_
  rw [hdoc, ← hoptions]
  rfl

theorem Service.lists (service : Service) :
    Lists visit (service.traverseDocs visit) service.documented fun service' found =>
      service'.documented = found := by
  refine (Lists.entry _ _).bind fun doc _ hdoc => ?_
  refine (Lists.mapM fun option _ => option.lists visit).bind fun options _ hoptions => ?_
  refine (Lists.mapM fun method _ => method.lists visit).last fun methods _ hmethods => ?_
  rw [hdoc, ← hoptions, ← hmethods]
  rfl

theorem Project.lists (project : Project) :
    Lists visit (project.traverseDocs visit) project.documented fun project' found =>
      project'.documented = found := by
  refine (Lists.entry _ _).bind fun doc _ hdoc => ?_
  refine (Lists.mapM (e := ProjectArea.documented) fun area _ =>
    (Lists.mapM fun option _ => option.lists visit).last fun options _ hoptions => ?_).last
      fun areas _ hareas => ?_
  · exact hoptions
  · rw [hdoc, ← hareas]
    rfl

theorem Schema.lists (schema : Schema) :
    Lists visit (schema.traverseDocs visit) schema.documented fun schema' found =>
      schema'.documented = found := by
  refine (Lists.entry _ _).bind fun doc _ hdoc => ?_
  refine (Lists.mapM (e := Import.documented) fun item _ =>
    (Lists.entry _ _).last fun doc _ hdoc => ?_).bind fun imports _ himports => ?_
  · exact hdoc.symm
  refine (Lists.mapM fun option _ => option.lists visit).bind fun options _ hoptions => ?_
  refine (Lists.mapM fun enum _ => enum.lists visit).bind fun enums _ henums => ?_
  refine (Message.allLists visit schema.messages).bind fun messages _ hmessages => ?_
  refine (Lists.mapM fun service _ => service.lists visit).bind fun services _ hservices => ?_
  refine (Lists.mapM fun project _ => project.lists visit).last fun projects _ hprojects => ?_
  rw [hdoc, ← himports, ← hoptions, ← henums, ← hmessages, ← hservices, ← hprojects]
  rfl

variable {visit}

theorem visitAll_cons (entry : DocEntry) (entries : List DocEntry) (s : σ) :
    visitAll visit (entry :: entries) s =
      ((visit entry.1 entry.2 s).1 :: (visitAll visit entries (visit entry.1 entry.2 s).2).1,
        (visitAll visit entries (visit entry.1 entry.2 s).2).2) := by
  rw [visitAll, mapM_cons]
  rfl

end Visits

/-! ## Places and comments -/

theorem visitAll_record
    {record : Span → Doc → StateM (List Span) Doc}
    (hrecord : ∀ span doc spans, record span doc spans = (doc, spans ++ [span]))
    (entries : List DocEntry) (spans : List Span) :
    visitAll record entries spans = (entries.map (·.2), spans ++ entries.map (·.1)) := by
  induction entries generalizing spans with
  | nil => exact Prod.ext rfl (append_nil spans).symm
  | cons entry entries ih =>
    rw [visitAll_cons, hrecord, ih, map_cons, map_cons, append_assoc, singleton_append]

theorem visitAll_take
    {take : Span → Doc → StateM (List Doc) Doc}
    (htake : ∀ span doc first docs, take span doc (first :: docs) = (first, docs))
    {entries : List DocEntry} {docs : List Doc} (h : docs.length = entries.length) :
    visitAll take entries docs = (docs, []) := by
  induction entries generalizing docs with
  | nil =>
    obtain rfl := length_eq_zero_iff.1 h
    rfl
  | cons entry entries ih =>
    obtain ⟨first, docs, rfl⟩ := exists_cons_of_length_eq_add_one h
    rw [visitAll_cons, htake, ih (Nat.succ.inj h)]

/-- The places that are found are those of the entries. -/
theorem Schema.documentedAt_eq (schema : Schema) :
    schema.documentedAt = schema.documented.map (·.1) := by
  unfold documentedAt
  extract_lets record
  have hrecord : ∀ span doc spans, record span doc spans = (doc, spans ++ [span]) :=
    fun _ _ _ => rfl
  obtain ⟨schema', spans, found, hrun, hvisits, hplaces, -⟩ := schema.lists record []
  rw [visitAll_record hrecord] at hvisits
  show (schema.traverseDocs record []).2 = _
  rw [hrun, ← (Prod.mk.inj hvisits).2, nil_append]

/-- Comments that are given out go to the entries, one to each. -/
theorem Schema.documented_withDocs_eq
    (schema : Schema) {docs : List Doc} (h : docs.length = schema.documented.length) :
    (schema.withDocs docs).documented = (schema.documented.map (·.1)).zip docs := by
  unfold withDocs
  extract_lets take
  have htake : ∀ span doc first docs, take span doc (first :: docs) = (first, docs) :=
    fun _ _ _ _ => rfl
  obtain ⟨schema', left, found, hrun, hvisits, hplaces, hfound⟩ := schema.lists take docs
  rw [visitAll_take htake h] at hvisits
  show (schema.traverseDocs take docs).1.documented = _
  rw [hrun, hfound, ← hplaces, (Prod.mk.inj hvisits).1]
  rw [← unzip_fst, ← unzip_snd, zip_unzip]

end Idl
