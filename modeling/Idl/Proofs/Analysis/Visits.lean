import Idl.Analysis.Import
import Idl.Proofs.Analysis.Distinct
import Idl.Proofs.Grammar.MethodIds

/-!
# The order of visits

The checks of a program visit its declarations in one order, and record what has to be distinct in
tables that come and go.  Here the order is written out as a list, in which each entry names its
scope.  The main statements say that a check fails with what a search through the list finds: the
first entry whose key was recorded before in the same scope.
-/

namespace Idl

open List

variable {methods : List Method} {first index : Nat} {ds : List Definition} {names : Sites String}
  {ledger : Ledger} {other realm : Realm} {config : ParseConfig}

/-! ## Entries -/

/-- What has to be distinct inside a definition. -/
inductive Table
  | names
  | numbers
  | options
  | memberOptions (member : Nat)
deriving DecidableEq

/-- A scope, in which no key may be there twice. -/
inductive Realm
  | importFiles
  | importNames
  | packageOptions
  | definitions
  /-- A table of the definition that has the given number in its program. -/
  | inside (definition : Nat) (table : Table)
  /-- The options of an area of a project. -/
  | area (project area : Nat)
deriving DecidableEq

inductive Key
  | name (value : String)
  | number (value : Int64)
deriving DecidableEq

/-- What is recorded of a declaration. -/
structure Entry where
  realm : Realm
  key : Key
  span : Span
  /-- The name of the declaration. -/
  owner : String
  /-- What is there twice if the key is, given the owner of the first entry. -/
  repeated : String → Repeated

namespace Entry

/-- A name, or the key of an option. -/
def named (realm : Realm) (what : Repeated) (name : Located String) : Entry :=
  ⟨realm, .name name.value, name.span, name.value, fun _ => what⟩

/-- A number in a definition. -/
def numbered
    (index : Nat) (owner : String) (number : Located Int64) (repeated : String → Repeated) :
    Entry :=
  ⟨.inside index .numbers, .number number.value, number.span, owner, repeated⟩

/-- The entries have the same key in the same scope. -/
def Collides (first second : Entry) : Prop := first.realm = second.realm ∧ first.key = second.key

instance : DecidableRel Collides := fun _ _ => inferInstanceAs (Decidable (_ ∧ _))

theorem collides_of_find?
    {seen : List Entry} {entry first : Entry} (h : seen.find? (·.Collides entry) = some first) :
    first.Collides entry := by
  simpa using find?_some h

def clash (entry first : Entry) : Clash :=
  .repeated (entry.repeated first.owner) entry.span first.span

end Entry

inductive Visit
  | record (entry : Entry)
  /-- The method should have an id. -/
  | missingId (service : String) (method : Located String)

namespace Visit

variable {seen more : List Entry} {realm : Realm} {entry : Entry}

def entry? : Visit → Option Entry
  | record entry => some entry
  | missingId _ _ => none

def entries (visits : List Visit) : List Entry := visits.filterMap entry?

@[simp]
theorem mem_entries {visits : List Visit} : entry ∈ entries visits ↔ record entry ∈ visits := by
  simp only [entries, mem_filterMap]
  constructor
  · rintro ⟨_ | _, hvisit, ⟨⟩⟩
    exact hvisit
  · exact fun h => ⟨_, h, rfl⟩

/-- Goes through the visits up to the first entry that collides with one seen before. -/
def scan : List Entry → List Visit → Except Clash Unit
  | _, [] => .ok ()
  | seen, record entry :: visits =>
    match seen.find? (·.Collides entry) with
    | some first => .error (entry.clash first)
    | none => scan (seen ++ [entry]) visits
  | _, missingId service method :: _ => .error (.missingId service method)

theorem scan_append (seen : List Entry) (visits visits' : List Visit) :
    scan seen (visits ++ visits') =
      (scan seen visits >>= fun _ => scan (seen ++ entries visits) visits') := by
  induction visits generalizing seen with
  | nil => simp [scan, entries, bind, Except.bind]
  | cons visit visits ih =>
    cases visit with
    | missingId service method => rfl
    | record entry =>
      simp only [cons_append, scan]
      split
      · rfl
      · simp [ih, entries, entry?]

theorem bind_eq_scan_append
    {x y : Except Clash Unit} {visits visits' : List Visit} (hx : x = scan seen visits)
    (hy : y = scan (seen ++ entries visits) visits') :
    (x >>= fun _ => y) = scan seen (visits ++ visits') := by
  rw [scan_append, hx, hy]

/-! ## Tables -/

/-- Nothing of the scope has been seen. -/
def Unseen (seen : List Entry) (realm : Realm) : Prop := ∀ entry ∈ seen, entry.realm ≠ realm

theorem unseen_nil (realm : Realm) : Unseen [] realm := forall_mem_nil _

theorem Unseen.append (h : Unseen seen realm) (hmore : Unseen more realm) :
    Unseen (seen ++ more) realm :=
  forall_mem_append.2 ⟨h, hmore⟩

theorem unseen_named (h : other ≠ realm) (what : Repeated) (name : Located String) :
    Unseen [.named other what name] realm :=
  forall_mem_singleton.2 h

/-- An attempt to record the entry: it fails at the first one that the entry collides with, or it
goes on from a state that has the property. -/
inductive Recorded {σ : Type} (seen : List Entry) (entry : Entry) (P : σ → Prop) :
    Except Span σ → Prop
  | taken {first : Entry} (found : seen.find? (·.Collides entry) = some first) :
    Recorded seen entry P (.error first.span)
  | free {state : σ} (found : seen.find? (·.Collides entry) = none) (next : P state) :
    Recorded seen entry P (.ok state)

namespace Recorded

variable {σ τ : Type} {P : σ → Prop} {Q : τ → Prop} {x : Except Span σ}

theorem mono {R : σ → Prop} (h : Recorded seen entry P x) (hR : ∀ s, P s → R s) :
    Recorded seen entry R x := by
  cases h with
  | taken found => exact .taken found
  | free found next => exact .free found (hR _ next)

theorem map (h : Recorded seen entry P x) {f : σ → τ} (hf : ∀ s, P s → Q (f s)) :
    Recorded seen entry Q (x.map f) := by
  cases h with
  | taken found => exact .taken found
  | free found next => exact .free found (hf _ next)

theorem bind_eq_scan
    {fault : Span → Clash} {next : σ → Except Clash Unit} {visits : List Visit}
    (h : Recorded seen entry P x)
    (hfault : ∀ first, seen.find? (·.Collides entry) = some first →
      fault first.span = entry.clash first)
    (hnext : ∀ s, P s → next s = scan (seen ++ [entry]) visits) :
    (x.mapError fault >>= next) = scan seen (record entry :: visits) := by
  cases h with
  | taken found =>
    simp only [scan, found, ← hfault _ found]
    rfl
  | free found hstate =>
    simp only [scan, found, ← hnext _ hstate]
    rfl

end Recorded

end Visit

open Visit

namespace Sites

variable {κ : Type} [BEq κ] [LawfulBEq κ] {sites : Sites κ} {realm : Realm} {toKey : κ → Key}
  {seen more : List Entry}

/-- The table holds, for each key of a scope, the place of the first entry seen. -/
def Reflects (sites : Sites κ) (realm : Realm) (toKey : κ → Key) (seen : List Entry) : Prop :=
  ∀ key, sites.site? key =
    (seen.find? fun entry => entry.realm = realm ∧ entry.key = toKey key).map (·.span)

omit [LawfulBEq κ] in
theorem reflects_nil (h : Unseen seen realm) : Reflects ([] : Sites κ) realm toKey seen := by
  intro key
  have hnone : (seen.find? fun entry => entry.realm = realm ∧ entry.key = toKey key) = none := by
    rw [find?_eq_none]
    intro entry hentry
    simp [h entry hentry]
  rw [hnone]
  rfl

omit [LawfulBEq κ] in
theorem Reflects.append (h : sites.Reflects realm toKey seen) (hmore : Unseen more realm) :
    sites.Reflects realm toKey (seen ++ more) := by
  intro key
  have hnone : (more.find? fun entry => entry.realm = realm ∧ entry.key = toKey key) = none := by
    rw [find?_eq_none]
    intro entry hentry
    simp [hmore entry hentry]
  rw [h key, find?_append, hnone, Option.or_none]

/-- A table that reflects a scope takes an entry of the scope exactly if it collides with none, and
then reflects the scope again. -/
theorem recorded_insert
    (h : sites.Reflects realm toKey seen) (hinj : Function.Injective toKey) (entry : Entry)
    (hrealm : entry.realm = realm) {key : κ} (hkey : entry.key = toKey key) :
    Recorded seen entry (fun sites : Sites κ => sites.Reflects realm toKey (seen ++ [entry]))
      (sites.insert key entry.span) := by
  have hfind : sites.site? key = (seen.find? (·.Collides entry)).map (·.span) := by
    rw [h key, ← hrealm, ← hkey]
    rfl
  unfold insert
  cases hfound : seen.find? (·.Collides entry) with
  | some first =>
    rw [hfind, hfound]
    exact .taken hfound
  | none =>
    rw [hfind, hfound]
    refine .free hfound fun other => ?_
    rw [find?_append, find?_singleton, hrealm, hkey, Option.map_or, ← h other]
    -- the new entry is found under its own key, which was not there, and under no other
    by_cases hother : other = key
    · subst hother
      rw [hfind, hfound]
      simp [site?, add]
    · have hne : ¬toKey key = toKey other := fun heq => hother (hinj heq).symm
      simp [site?, add, lookup_cons, beq_false_of_ne hother, hne]

theorem recorded_named
    (h : names.Reflects realm .name seen) (what : Repeated) (name : Located String) :
    Recorded seen (.named realm what name)
      (fun names : Sites String => names.Reflects realm .name (seen ++ [.named realm what name]))
      (names.insert name.value name.span) :=
  recorded_insert h (fun _ _ => Key.name.inj) (.named realm what name) rfl rfl

theorem recorded_numbered
    {numbers : Sites Int64} (h : numbers.Reflects (.inside index .numbers) .number seen)
    (owner : String) (number : Located Int64) (repeated : String → Repeated) :
    Recorded seen (.numbered index owner number repeated)
      (fun numbers : Sites Int64 => numbers.Reflects (.inside index .numbers) .number
        (seen ++ [.numbered index owner number repeated]))
      (numbers.insert number.value number.span) :=
  recorded_insert h (fun _ _ => Key.number.inj) (.numbered index owner number repeated) rfl rfl

end Sites

namespace Ledger

variable {ledger : Ledger} {index first : Nat} {seen : List Entry}

/-- The ledger holds the names and the numbers seen in a definition, of which the options of the
members from `first` on have not been seen. -/
structure Reflects (ledger : Ledger) (index first : Nat) (seen : List Entry) : Prop where
  names : ledger.names.Reflects (.inside index .names) .name seen
  numbers : ledger.numbers.Reflects (.inside index .numbers) .number seen
  members : ∀ member, first ≤ member → Unseen seen (.inside index (.memberOptions member))

theorem reflects_empty (h : ∀ table, Unseen seen (.inside index table)) :
    empty.Reflects index 0 seen :=
  ⟨Sites.reflects_nil (h _), Sites.reflects_nil (h _), fun _ _ => h _⟩

theorem recorded_name
    (h : ledger.Reflects index first seen) (what : Repeated) (name : Located String) :
    Recorded seen (.named (.inside index .names) what name)
      (fun names => Reflects ⟨names, ledger.numbers⟩ index first
        (seen ++ [.named (.inside index .names) what name]))
      (ledger.names.insert name.value name.span) := by
  refine (Sites.recorded_named h.names what name).mono fun names hnames => ?_
  have hother : ∀ {table}, table ≠ .names →
      Unseen [.named (.inside index .names) what name] (.inside index table) :=
    fun htable => unseen_named (by simpa using htable.symm) what name
  exact ⟨hnames, h.numbers.append (hother (by simp)),
    fun member hmember => (h.members member hmember).append (hother (by simp))⟩

theorem recorded_insertName
    (h : ledger.Reflects index first seen) (what : Repeated) (name : Located String) :
    Recorded seen (.named (.inside index .names) what name)
      (fun ledger : Ledger =>
        ledger.Reflects index first (seen ++ [.named (.inside index .names) what name]))
      (ledger.insertName name.value name.span) :=
  (recorded_name h what name).map fun _ hnames => hnames

theorem recorded_insertNumber
    (h : ledger.Reflects index first seen) (owner : String) (number : Located Int64)
    (repeated : String → Repeated) :
    Recorded seen (.numbered index owner number repeated)
      (fun ledger : Ledger =>
        ledger.Reflects index first (seen ++ [.numbered index owner number repeated]))
      (ledger.insertNumber number.value number.span) := by
  refine (Sites.recorded_numbered h.numbers owner number repeated).map fun numbers hnumbers => ?_
  have hother : ∀ {table}, table ≠ .numbers →
      Unseen [.numbered index owner number repeated] (.inside index table) :=
    fun htable => forall_mem_singleton.2 (by simpa [Entry.numbered] using htable.symm)
  exact ⟨h.names.append (hother (by simp)), hnumbers,
    fun member hmember => (h.members member hmember).append (hother (by simp))⟩

end Ledger

/-! ## Visits of one definition -/

/-- The visits are to tables of one definition that have the property. -/
def Stays (index : Nat) (P : Table → Prop) (visits : List Visit) : Prop :=
  ∀ entry, .record entry ∈ visits → ∃ table, P table ∧ entry.realm = .inside index table

namespace Stays

variable {index : Nat} {P Q : Table → Prop} {visits visits' : List Visit}

theorem append (h : Stays index P visits) (h' : Stays index P visits') :
    Stays index P (visits ++ visits') :=
  fun entry hentry => (mem_append.1 hentry).elim (h entry) (h' entry)

theorem mono (h : Stays index P visits) (hPQ : ∀ table, P table → Q table) :
    Stays index Q visits := by
  intro entry hentry
  obtain ⟨table, htable, hrealm⟩ := h entry hentry
  exact ⟨table, hPQ table htable, hrealm⟩

theorem unseen {table : Table} (h : Stays index P visits) (htable : ¬P table) :
    Unseen (entries visits) (.inside index table) := by
  rintro entry hentry hrealm
  obtain ⟨other, hother, hrealm'⟩ := h entry (mem_entries.1 hentry)
  cases hrealm.symm.trans hrealm'
  exact htable hother

theorem unseen_of_ne (h : Stays index P visits) (hrealm : ∀ table, .inside index table ≠ realm) :
    Unseen (entries visits) realm := by
  intro entry hentry
  obtain ⟨table, -, hentry⟩ := h entry (mem_entries.1 hentry)
  rw [hentry]
  exact hrealm table

end Stays

/-! ## Options -/

namespace OptionDecl

variable {realm : Realm} {owner : OptionOwner} {options : List OptionDecl} {seen : List Entry}

def visits (realm : Realm) (owner : OptionOwner) (options : List OptionDecl) : List Visit :=
  options.map fun option => .record (.named realm (.option owner option.key.value) option.key)

theorem mem_visits_iff {entry : Entry} :
    .record entry ∈ visits realm owner options ↔
      ∃ option ∈ options, .named realm (.option owner option.key.value) option.key = entry := by
  simp [visits]

theorem unseen_visits (h : realm ≠ other) :
    Unseen (entries (visits realm owner options)) other := by
  intro entry hentry
  obtain ⟨option, -, rfl⟩ := mem_visits_iff.1 (mem_entries.1 hentry)
  exact h

theorem stays_visits {table : Table} {P : Table → Prop} (h : P table) :
    Stays index P (visits (.inside index table) owner options) := by
  intro entry hentry
  obtain ⟨option, -, rfl⟩ := mem_visits_iff.1 hentry
  exact ⟨table, h, rfl⟩

theorem checkKeys_eq_scan {keys : Sites String} (h : keys.Reflects realm .name seen) :
    checkOptionKeys owner keys options = scan seen (visits realm owner options) := by
  induction options generalizing keys seen with
  | nil => rfl
  | cons option options ih =>
    exact (Sites.recorded_named h _ option.key).bind_eq_scan (fun _ _ => rfl) fun _ h => ih h

theorem check_eq_scan (h : Unseen seen realm) :
    checkOptions owner options = scan seen (visits realm owner options) :=
  checkKeys_eq_scan (Sites.reflects_nil h)

end OptionDecl

theorem Ledger.Reflects.options
    {seen : List Entry} (h : ledger.Reflects index first seen) (owner : OptionOwner)
    (options : List OptionDecl) :
    ledger.Reflects index (first + 1) (seen ++
      entries (OptionDecl.visits (.inside index (.memberOptions first)) owner options)) := by
  refine ⟨h.names.append (OptionDecl.unseen_visits (by simp)),
    h.numbers.append (OptionDecl.unseen_visits (by simp)), fun member hmember => ?_⟩
  have hne : first ≠ member := Nat.ne_of_lt hmember
  exact (h.members member (Nat.le_of_lt hmember)).append
    (OptionDecl.unseen_visits (by simpa using hne))

/-! ## Enums -/

namespace EnumDef

variable {index : Nat} {seen : List Entry}

def valueVisits (index : Nat) (enum : String) (values : List EnumValue) : List Visit :=
  values.flatMap fun value =>
    let name := value.name
    [.record (.named (.inside index .names) (.enumValue enum name.value) name),
      .record (.numbered index name.value ⟨value.number, name.span⟩ fun _ =>
        .enumNumber enum name.value value.number)]

def visits (index : Nat) (enum : EnumDef) : List Visit :=
  valueVisits index enum.name.value enum.values ++
    OptionDecl.visits (.inside index .options) (.enum enum.name.value) enum.options

theorem stays_valueVisits (enum : String) (values : List EnumValue) :
    Stays index (· ≠ .options) (valueVisits index enum values) := by
  intro entry hentry
  obtain ⟨value, -, hentry⟩ := mem_flatMap.1 hentry
  simp only [mem_cons, Visit.record.injEq, not_mem_nil, or_false] at hentry
  rcases hentry with rfl | rfl
  · exact ⟨.names, by simp, rfl⟩
  · exact ⟨.numbers, by simp, rfl⟩

theorem stays_visits (enum : EnumDef) : Stays index (fun _ => True) (enum.visits index) :=
  ((stays_valueVisits _ _).mono fun _ _ => trivial).append (OptionDecl.stays_visits trivial)

theorem checkValues_eq_scan
    {enum : String} {values : List EnumValue} (h : ledger.Reflects index 0 seen) :
    checkValues enum ledger values = scan seen (valueVisits index enum values) := by
  induction values generalizing ledger seen with
  | nil => rfl
  | cons value values ih =>
    refine (Ledger.recorded_insertName h _ value.name).bind_eq_scan (fun _ _ => rfl) fun _ h => ?_
    exact (Ledger.recorded_insertNumber h _ ⟨value.number, value.name.span⟩ _).bind_eq_scan
      (fun _ _ => rfl) fun _ h => ih h

theorem check_eq_scan {enum : EnumDef} (h : ∀ table, Unseen seen (.inside index table)) :
    enum.check = scan seen (enum.visits index) :=
  bind_eq_scan_append (checkValues_eq_scan (Ledger.reflects_empty h))
    (OptionDecl.check_eq_scan ((h _).append ((stays_valueVisits _ _).unseen (by simp))))

end EnumDef

/-! ## Messages -/

namespace Message

variable {index : Nat} {seen : List Entry}

def fieldVisits (index : Nat) (message : String) (first : Nat) (fields : List Field) : List Visit :=
  (fields.zipIdx first).flatMap fun (field, member) =>
    let name := field.name
    .record (.numbered index name.value field.tag fun _ =>
        .tag message name.value field.tag.value) ::
      .record (.named (.inside index .names) (.field message name.value) name) ::
        OptionDecl.visits (.inside index (.memberOptions member)) (.field message name.value)
          field.options

def visits (index : Nat) (message : Message) : List Visit :=
  fieldVisits index message.name.value 0 message.fields ++
    OptionDecl.visits (.inside index .options) (.message message.name.value) message.options

theorem stays_fieldVisits (message : String) (first : Nat) (fields : List Field) :
    Stays index (· ≠ .options) (fieldVisits index message first fields) := by
  intro entry hentry
  obtain ⟨⟨field, member⟩, -, hentry⟩ := mem_flatMap.1 hentry
  simp only [mem_cons, Visit.record.injEq] at hentry
  rcases hentry with rfl | rfl | hentry
  · exact ⟨.numbers, by simp, rfl⟩
  · exact ⟨.names, by simp, rfl⟩
  · exact OptionDecl.stays_visits (by simp) entry hentry

theorem stays_visits (message : Message) : Stays index (fun _ => True) (message.visits index) :=
  ((stays_fieldVisits _ _ _).mono fun _ _ => trivial).append (OptionDecl.stays_visits trivial)

theorem checkFields_eq_scan
    {message : String} {fields : List Field} (h : ledger.Reflects index first seen) :
    checkFields message ledger fields = scan seen (fieldVisits index message first fields) := by
  induction fields generalizing ledger seen first with
  | nil => rfl
  | cons field fields ih =>
    refine (Ledger.recorded_insertNumber h _ field.tag _).bind_eq_scan
      (fun _ _ => rfl) fun _ h => ?_
    refine (Ledger.recorded_insertName h _ field.name).bind_eq_scan (fun _ _ => rfl) fun _ h => ?_
    exact bind_eq_scan_append (OptionDecl.check_eq_scan (h.members first (Nat.le_refl _)))
      (ih (h.options _ _))

theorem check_eq_scan {message : Message} (h : ∀ table, Unseen seen (.inside index table)) :
    message.check = scan seen (message.visits index) :=
  bind_eq_scan_append (checkFields_eq_scan (Ledger.reflects_empty h))
    (OptionDecl.check_eq_scan ((h _).append ((stays_fieldVisits _ _ _).unseen (by simp))))

end Message

/-! ## Services -/

namespace Service

variable {index : Nat} {seen : List Entry}

def methodVisits (index : Nat) (service : String) (first : Nat) (methods : List Method) :
    List Visit :=
  (methods.zipIdx first).flatMap fun (method, member) =>
    let name := method.name
    .record (.named (.inside index .names) (.method service name.value) name) ::
      OptionDecl.visits (.inside index (.memberOptions member)) (.method service name.value)
        method.options

def idEntry (index : Nat) (service : String) (method : Method) (id : Located Int64) : Entry :=
  .numbered index method.name.value id fun first =>
    .methodId service first method.name.value id.value

def idVisits (index : Nat) (service : String) (methods : List Method) : List Visit :=
  methods.map fun method =>
    match method.id with
    | none => .missingId service method.name
    | some id => .record (idEntry index service method id)

def visits (config : ParseConfig) (index : Nat) (service : Service) : List Visit :=
  methodVisits index service.name.value 0 service.methods ++
    (OptionDecl.visits (.inside index .options) (.service service.name.value) service.options ++
      if config.useMethodId then idVisits index service.name.value service.methods else [])

theorem mem_idVisits_iff {service : String} {entry : Entry} :
    .record entry ∈ idVisits index service methods ↔
      ∃ method ∈ methods, ∃ id, method.id = some id ∧ idEntry index service method id = entry := by
  simp only [idVisits, mem_map]
  refine exists_congr fun method => and_congr_right fun _ => ?_
  cases method.id <;> simp

theorem stays_methodVisits (service : String) (first : Nat) (methods : List Method) :
    Stays index (fun table => table ≠ .options ∧ table ≠ .numbers)
      (methodVisits index service first methods) := by
  intro entry hentry
  obtain ⟨⟨method, member⟩, -, hentry⟩ := mem_flatMap.1 hentry
  simp only [mem_cons, Visit.record.injEq] at hentry
  rcases hentry with rfl | hentry
  · exact ⟨.names, by simp, rfl⟩
  · exact OptionDecl.stays_visits (by simp) entry hentry

theorem stays_idVisits (config : ParseConfig) (service : Service) :
    Stays index (· = .numbers) (if config.useMethodId then
      idVisits index service.name.value service.methods else []) := by
  intro entry hentry
  split at hentry
  · obtain ⟨method, -, id, -, rfl⟩ := mem_idVisits_iff.1 hentry
    exact ⟨.numbers, rfl, rfl⟩
  · cases hentry

theorem stays_visits (config : ParseConfig) (service : Service) :
    Stays index (fun _ => True) (service.visits config index) :=
  ((stays_methodVisits _ _ _).mono fun _ _ => trivial).append
    ((OptionDecl.stays_visits trivial).append
      ((stays_idVisits config service).mono fun _ _ => trivial))

theorem checkMethods_eq_scan {service : String} (h : Ledger.Reflects ⟨names, []⟩ index first seen) :
    checkMethods service names methods = scan seen (methodVisits index service first methods) := by
  induction methods generalizing names seen first with
  | nil => rfl
  | cons method methods ih =>
    refine (Ledger.recorded_name h _ method.name).bind_eq_scan (fun _ _ => rfl) fun _ h => ?_
    exact bind_eq_scan_append (OptionDecl.check_eq_scan (h.members first (Nat.le_refl _)))
      (ih (h.options _ _))

theorem find?_id_eq
    (h : methods.Pairwise fun m m' => ∀ s, Layout.id.At m s → ¬Layout.id.At m' s) {method : Method}
    (hmethod : method ∈ methods) {id : Located Int64} (hid : method.id = some id) :
    methods.find? (fun method => method.id.any (·.span == id.span)) = some method := by
  induction methods with
  | nil => cases hmethod
  | cons other methods ih =>
    obtain ⟨hfirst, hmore⟩ := pairwise_cons.1 h
    rcases mem_cons.1 hmethod with rfl | hmethod
    · exact find?_cons_of_pos (by simp [hid])
    · rw [find?_cons_of_neg, ih hmore hmethod]
      intro hother
      obtain ⟨id', hid', hspan⟩ := (Option.any_eq_true _ _).1 hother
      exact hfirst method hmethod id.span ⟨id', hid', beq_iff_eq.1 hspan⟩ ⟨id, hid, rfl⟩

/-- An id belongs to one method. -/
theorem idOwner_eq
    {service : Service} (h : service.IdsApart) {method : Method}
    (hmethod : method ∈ service.methods) {id : Located Int64} (hid : method.id = some id) :
    service.idOwner id.span = method.name.value := by
  rw [idOwner, find?_id_eq h hmethod hid]

theorem checkIds_eq_scan
    {service : Service} (h : service.IdsApart) {ids : Sites Int64}
    (hids : ids.Reflects (.inside index .numbers) .number seen)
    (hmethods : methods ⊆ service.methods)
    (howner : ∀ entry ∈ seen, entry.realm = .inside index .numbers →
      service.idOwner entry.span = entry.owner) :
    service.checkIds ids methods = scan seen (idVisits index service.name.value methods) := by
  induction methods generalizing ids seen with
  | nil => rfl
  | cons method methods ih =>
    obtain ⟨hmethod, hmore⟩ := cons_subset.1 hmethods
    rw [idVisits, map_cons]
    unfold checkIds
    cases hid : method.id with
    | none => rfl
    | some id =>
      refine (Sites.recorded_numbered hids _ id _).bind_eq_scan
        (fun first hfirst => ?_) fun _ hids => ?_
      · have hrealm := (Entry.collides_of_find? hfirst).1
        rw [howner first (mem_of_find?_eq_some hfirst) hrealm]
        rfl
      · have hown : service.idOwner id.span = method.name.value := idOwner_eq h hmethod hid
        exact ih hids hmore
          (forall_mem_append.2 ⟨howner, forall_mem_singleton.2 fun _ => hown⟩)

theorem checkIds_nil_eq_scan
    {service : Service} (h : service.IdsApart) (hunseen : Unseen seen (.inside index .numbers)) :
    service.checkIds [] service.methods =
      scan seen (idVisits index service.name.value service.methods) :=
  checkIds_eq_scan h (Sites.reflects_nil hunseen) (List.Subset.refl _)
    fun entry hentry hrealm => (hunseen entry hentry hrealm).elim

theorem check_eq_scan
    {service : Service} (hids : service.IdsApart) (h : ∀ table, Unseen seen (.inside index table)) :
    service.check config = scan seen (service.visits config index) := by
  have hmethods : ∀ {table}, ¬(table ≠ .options ∧ table ≠ .numbers) →
      Unseen (seen ++ entries (methodVisits index service.name.value 0 service.methods))
        (.inside index table) :=
    fun htable => (h _).append ((stays_methodVisits _ _ _).unseen htable)
  refine bind_eq_scan_append (checkMethods_eq_scan (Ledger.reflects_empty h)) ?_
  refine bind_eq_scan_append (OptionDecl.check_eq_scan (hmethods (by simp))) ?_
  split
  · exact checkIds_nil_eq_scan hids
      ((hmethods (by simp)).append (OptionDecl.unseen_visits (by simp)))
  · rfl

end Service

/-! ## Definitions -/

namespace Definition

variable {config : ParseConfig} {index : Nat} {seen : List Entry}

def entry (d : Definition) : Entry :=
  .named .definitions (.definition d.kind d.name.value) d.name

def visits (config : ParseConfig) (index : Nat) : Definition → List Visit
  | enum _ body => body.visits index
  | message _ body => body.visits index
  | service body => body.visits config index

def allVisits (config : ParseConfig) (first : Nat) (ds : List Definition) : List Visit :=
  (ds.zipIdx first).flatMap fun (d, index) => .record d.entry :: d.visits config index

theorem stays_visits (d : Definition) : Stays index (fun _ => True) (d.visits config index) := by
  cases d with
  | enum path body | message path body => exact body.stays_visits
  | service body => exact body.stays_visits config

theorem exists_of_mem_allVisits {entry : Entry} (h : .record entry ∈ allVisits config first ds) :
    ∃ d index, (d, index) ∈ ds.zipIdx first ∧
      (entry = d.entry ∨ .record entry ∈ d.visits config index) := by
  obtain ⟨⟨d, index⟩, hd, hentry⟩ := mem_flatMap.1 h
  exact ⟨d, index, hd, by simpa using hentry⟩

theorem unseen_allVisits
    (hdefinitions : .definitions ≠ realm) (hinside : ∀ index table, .inside index table ≠ realm) :
    Unseen (entries (allVisits config first ds)) realm := by
  intro entry hentry
  obtain ⟨d, index, -, rfl | hentry⟩ := exists_of_mem_allVisits (mem_entries.1 hentry)
  · exact hdefinitions
  · exact d.stays_visits.unseen_of_ne (hinside index) entry (mem_entries.2 hentry)

theorem check_eq_scan
    {d : Definition} (hids : ∀ body, d = .service body → body.IdsApart)
    (h : ∀ table, Unseen seen (.inside index table)) :
    d.check config = scan seen (d.visits config index) := by
  cases d with
  | enum path body => exact EnumDef.check_eq_scan h
  | message path body => exact Message.check_eq_scan h
  | service body => exact Service.check_eq_scan (hids body rfl) h

end Definition

/-- Fails with the clash, if there is one. -/
def Clash.raise : Option Clash → Except Clash Unit
  | none => .ok ()
  | some clash => .error clash

namespace Scope

variable {config : ParseConfig} {scope : Scope} {seen : List Entry}

theorem raise_enter_cons
    (config : ParseConfig) (scope : Scope) (d : Definition) (ds : List Definition) :
    Clash.raise (scope.enter config (d :: ds)).2 =
      (scope.define d >>= fun scope =>
        d.check config >>= fun _ => Clash.raise (scope.enter config ds).2) := by
  rw [enter]
  cases scope.define d with
  | error clash => rfl
  | ok scope => cases d.check config <;> rfl

theorem define_bind (scope : Scope) (d : Definition) (next : Scope → Except Clash Unit) :
    (scope.define d >>= next) =
      ((scope.names.insert d.name.value d.name.span).mapError
        (.repeated (.definition d.kind d.name.value) d.name.span) >>= fun names =>
          next { scope.extend d with names }) := by
  rw [define, bind_assoc]
  congr 1
  funext names
  cases d <;> simp [extend, Definition.messageRow?, Definition.enumRow?]

/-- Definitions are entered up to the first repeated key, of their names or inside one of them. -/
theorem raise_enter_eq_scan
    (hids : ∀ body, .service body ∈ ds → body.IdsApart)
    (hnames : scope.names.Reflects .definitions .name seen)
    (hfirst : ∀ index, first ≤ index → ∀ table, Unseen seen (.inside index table)) :
    Clash.raise (scope.enter config ds).2 = scan seen (Definition.allVisits config first ds) := by
  induction ds generalizing scope seen first with
  | nil => rfl
  | cons d ds ih =>
    rw [raise_enter_cons, define_bind]
    refine (Sites.recorded_named hnames _ d.name).bind_eq_scan
      (fun _ _ => rfl) fun names hnames => ?_
    have hown : ∀ index, first ≤ index → ∀ table,
        Unseen (seen ++ [d.entry]) (.inside index table) :=
      fun index hindex table => (hfirst index hindex table).append (unseen_named (by simp) _ _)
    refine bind_eq_scan_append
      (Definition.check_eq_scan (fun body hbody => hids body (hbody ▸ mem_cons_self))
        (hown first (Nat.le_refl _))) ?_
    refine ih (fun body hbody => hids body (mem_cons_of_mem _ hbody))
      (hnames.append (d.stays_visits.unseen_of_ne (by simp))) fun index hindex table => ?_
    have hne : first ≠ index := Nat.ne_of_lt hindex
    exact (hown index (Nat.le_of_lt hindex) table).append
      (d.stays_visits.unseen_of_ne (by simp [hne]))

end Scope

/-! ## Projects -/

theorem Visit.forM_eq_scan
    {α : Type} (check : α → Except Clash Unit) (visits : Nat → α → List Visit)
    (Own : Nat → Realm → Prop)
    (hcheck : ∀ {seen n} (x : α), (∀ realm, Own n realm → Unseen seen realm) →
      check x = scan seen (visits n x))
    (hvisits : ∀ {n m realm} (x : α), n ≠ m → Own m realm → Unseen (entries (visits n x)) realm)
    {seen : List Entry} (h : ∀ n, first ≤ n → ∀ realm, Own n realm → Unseen seen realm)
    (xs : List α) :
    xs.forM check = scan seen ((xs.zipIdx first).flatMap fun (x, n) => visits n x) := by
  induction xs generalizing seen first with
  | nil => rfl
  | cons x xs ih =>
    refine bind_eq_scan_append (hcheck x (h first (Nat.le_refl _))) (ih fun n hn realm hrealm => ?_)
    exact (h n (Nat.le_of_lt hn) realm hrealm).append (hvisits x (Nat.ne_of_lt hn) hrealm)

namespace Project

def areaOwner (project : Project) (area : ProjectArea) : OptionOwner :=
  if area.name.value.isEmpty then .project project.name.value
  else .area project.name.value area.name.value

def visits (index : Nat) (project : Project) : List Visit :=
  project.areas.zipIdx.flatMap fun (area, number) =>
    OptionDecl.visits (.area index number) (project.areaOwner area) area.options

theorem unseen_visits (project : Project) (h : ∀ number, .area index number ≠ realm) :
    Unseen (entries (project.visits index)) realm := by
  intro entry hentry
  obtain ⟨⟨area, number⟩, -, hentry⟩ := mem_flatMap.1 (mem_entries.1 hentry)
  exact OptionDecl.unseen_visits (h number) entry (mem_entries.2 hentry)

theorem check_eq_scan
    {seen : List Entry} (project : Project) (h : ∀ number, Unseen seen (.area index number)) :
    project.check = scan seen (project.visits index) := by
  refine Visit.forM_eq_scan (fun area => checkOptions (project.areaOwner area) area.options)
    (fun number area =>
      OptionDecl.visits (.area index number) (project.areaOwner area) area.options)
    (fun number realm => realm = .area index number) ?_ ?_ ?_ project.areas
  · exact fun area harea => OptionDecl.check_eq_scan (harea _ rfl)
  · rintro number other _ area hne rfl
    exact OptionDecl.unseen_visits (by simpa using hne)
  · rintro number - _ rfl
    exact h number

theorem forM_check_eq_scan
    {seen : List Entry} (h : ∀ index number, Unseen seen (.area index number))
    (projects : List Project) :
    projects.forM check =
      scan seen (projects.zipIdx.flatMap fun (project, index) => project.visits index) := by
  refine Visit.forM_eq_scan check visits (fun index realm => ∃ number, realm = .area index number)
    ?_ ?_ ?_ projects
  · exact fun project hproject => check_eq_scan project fun number => hproject _ ⟨number, rfl⟩
  · rintro index other _ project hne ⟨number, rfl⟩
    exact project.unseen_visits (by simp [hne])
  · rintro index - _ ⟨number, rfl⟩
    exact h index number

end Project

/-! ## Programs -/

namespace Schema

def visits (config : ParseConfig) (schema : Schema) : List Visit :=
  OptionDecl.visits .packageOptions .package schema.options ++
    (Definition.allVisits config 0 schema.definitions ++
      schema.projects.zipIdx.flatMap fun (project, index) => project.visits index)

def importVisits (imports : List Import) : List Visit :=
  imports.flatMap fun item =>
    .record (.named .importFiles (.importFile item.file.value) item.file) ::
      match item.localName with
      | none => []
      | some name => [.record (.named .importNames (.importName name.value) name)]

theorem checkImportsFrom_eq_scan
    {files : Sites String} {imports : List Import} {seen : List Entry}
    (hfiles : files.Reflects .importFiles .name seen)
    (hnames : names.Reflects .importNames .name seen) :
    checkImportsFrom files names imports = scan seen (importVisits imports) := by
  induction imports generalizing files names seen with
  | nil => rfl
  | cons item imports ih =>
    refine (Sites.recorded_named hfiles _ item.file).bind_eq_scan
      (fun _ _ => rfl) fun files hfiles => ?_
    cases item.localName with
    | none => exact ih hfiles (hnames.append (unseen_named (by simp) _ _))
    | some name =>
      refine (Sites.recorded_named (hnames.append (unseen_named (by simp) _ _)) _ name).bind_eq_scan
        (fun _ _ => rfl) fun _ hnames => ?_
      exact ih (hfiles.append (unseen_named (by simp) _ _)) hnames

theorem checkImports_eq_scan (schema : Schema) :
    schema.checkImports = scan [] (importVisits schema.imports) :=
  checkImportsFrom_eq_scan (Sites.reflects_nil (unseen_nil _)) (Sites.reflects_nil (unseen_nil _))

end Schema

namespace Program

theorem raise_checkDefinitions (config : ParseConfig) (program : Program) :
    Clash.raise (program.checkDefinitions config).2 =
      (checkOptions .package program.schema.options >>= fun _ =>
        Clash.raise (program.scope.enter config program.schema.definitions).2 >>= fun _ =>
          program.schema.projects.forM Project.check) := by
  unfold checkDefinitions
  cases checkOptions .package program.schema.options with
  | error clash => rfl
  | ok _ =>
    dsimp only
    rcases program.scope.enter config program.schema.definitions with ⟨scope, _ | clash⟩
    · dsimp only
      cases program.schema.projects.forM Project.check <;> simp [Clash.raise, bind, Except.bind]
    · rfl

theorem raise_checkDefinitions_eq_scan
    {schema : Schema} (file : String) (hids : ∀ service ∈ schema.services, service.IdsApart) :
    Clash.raise ((ofSchema file schema).checkDefinitions config).2 =
      scan [] (schema.visits config) := by
  rw [raise_checkDefinitions]
  refine bind_eq_scan_append (OptionDecl.check_eq_scan (unseen_nil _)) ?_
  refine bind_eq_scan_append ?_ (Project.forM_check_eq_scan ?_ _)
  · refine Scope.raise_enter_eq_scan ?_ ?_ ?_
    · exact fun body hbody => hids body (Schema.mem_definitions_service_iff.1 hbody)
    · exact Sites.reflects_nil (OptionDecl.unseen_visits (by simp))
    · exact fun index _ table => OptionDecl.unseen_visits (by simp)
  · exact fun index number => (OptionDecl.unseen_visits (by simp)).append
      (Definition.unseen_allVisits (by simp) (by simp))

end Program

end Idl
