import Idl.Proofs.Schema.Relabel
import Idl.Proofs.Token.Ranges
import Mathlib.Data.Nat.Find
import Mathlib.Order.MinMax

/-!
# Places of declarations

All places of a declaration are ranges of a text if the declaration stays as it is when the ends of
every place go back to boundaries of the text.  This is broken down to the parts of each kind of
declaration; comments do not matter.
-/

namespace Idl

variable {α : Type} {text : List Char}

/-! ## Places that are kept -/

namespace Relabel

open Classical in
/-- The last boundary of the text that is not beyond the offset. -/
noncomputable def lastBoundary (text : List Char) (offset : Nat) : Nat :=
  Nat.findGreatest (IsBoundary text) offset

open Classical in
theorem monotone_lastBoundary : Monotone (lastBoundary text) :=
  fun _ _ h => Nat.findGreatest_mono_right _ h

open Classical in
theorem lastBoundary_eq_iff {offset : Nat} :
    lastBoundary text offset = offset ↔ IsBoundary text offset := by
  constructor
  · intro h
    rw [← h]
    exact Nat.findGreatest_spec (Nat.zero_le _) (isBoundary_zero text)
  · exact Nat.findGreatest_eq

/-- Both ends of a place go back to a boundary of the text, and comments are forgotten. -/
noncomputable def aligning (text : List Char) : Relabel where
  span s :=
    ⟨lastBoundary text s.start, lastBoundary text s.stop, monotone_lastBoundary s.start_le_stop⟩
  doc _ := .none

theorem aligning_span_iff {s : Span} : (aligning text).span s = s ↔ s.Aligned text := by
  obtain ⟨start, stop, hle⟩ := s
  simp only [aligning, Span.mk.injEq, lastBoundary_eq_iff]
  exact ⟨fun h => ⟨h.1, h.2⟩, fun h => ⟨h.start, h.stop⟩⟩

@[simp] theorem aligning_doc (doc : Doc) : (aligning text).doc doc = .none := rfl

@[simp] theorem undocumented_doc (doc : Doc) : undocumented.doc doc = .none := rfl

end Relabel

/-- Every place in `x` is a range of the text: no end of it goes back. -/
def Placed (text : List Char) (relabel : Relabel → α → α) (x : α) : Prop :=
  relabel (.aligning text) x = relabel .undocumented x

theorem optionMap_inj_left {β : Type} {f g : α → β} {found : Option α} :
    found.map f = found.map g ↔ ∀ x ∈ found, f x = g x := by
  cases found <;> simp

theorem Located.relabel_aligning_iff {x : Located α} :
    x.relabel (.aligning text) = x.relabel .undocumented ↔ x.span.Aligned text := by
  rw [← Relabel.aligning_span_iff]
  simp [Located.relabel, Relabel.undocumented]

/-! ## Parts of declarations -/

theorem OptionDecl.placed_iff {option : OptionDecl} :
    Placed text OptionDecl.relabel option ↔ option.key.span.Aligned text := by
  simp [Placed, relabel, Located.relabel_aligning_iff]

theorem EnumValue.placed_iff {value : EnumValue} :
    Placed text EnumValue.relabel value ↔ value.name.span.Aligned text := by
  simp [Placed, relabel, Located.relabel_aligning_iff]

theorem TypeName.placed_iff {type : TypeName} :
    Placed text TypeName.relabel type ↔ type.name.span.Aligned text := by
  simp [Placed, relabel, Located.relabel_aligning_iff]

theorem ElemType.placed_iff {elem : ElemType} :
    Placed text ElemType.relabel elem ↔
      ∀ type, elem.custom? = some type → type.name.span.Aligned text := by
  cases elem with
  | base base => simp [Placed, relabel, mapCustom, custom?]
  | custom type =>
    simp only [custom?, Option.some.injEq, forall_eq', ← TypeName.placed_iff]
    simp [Placed, relabel, mapCustom]

theorem FieldType.placed_iff {type : FieldType} :
    Placed text FieldType.relabel type ↔ Placed text ElemType.relabel type.elem := by
  cases type <;> simp [Placed, relabel, mapCustom, elem, ElemType.relabel]

/-! ## Declarations -/

theorem EnumDef.placed_iff {enum : EnumDef} :
    Placed text EnumDef.relabel enum ↔
      enum.name.span.Aligned text ∧ (∀ v ∈ enum.values, Placed text EnumValue.relabel v) ∧
        ∀ o ∈ enum.options, Placed text OptionDecl.relabel o := by
  simp [Placed, relabel, Located.relabel_aligning_iff]

theorem Field.placed_iff {field : Field} :
    Placed text Field.relabel field ↔
      field.name.span.Aligned text ∧ field.tag.span.Aligned text ∧
        Placed text FieldType.relabel field.type ∧
        ∀ o ∈ field.options, Placed text OptionDecl.relabel o := by
  simp [Placed, relabel, Located.relabel_aligning_iff]

theorem Message.placed_iff {m : Message} :
    Placed text Message.relabel m ↔
      m.name.span.Aligned text ∧ (∀ f ∈ m.fields, Placed text Field.relabel f) ∧
        (∀ sub ∈ m.messages, Placed text Message.relabel sub) ∧
        (∀ e ∈ m.enums, Placed text EnumDef.relabel e) ∧
        ∀ o ∈ m.options, Placed text OptionDecl.relabel o := by
  rw [Placed, relabel_eq, relabel_eq]
  simp [Placed, Located.relabel_aligning_iff]

theorem MethodMessage.placed_inline_iff {m : Message} :
    Placed text MethodMessage.relabel (.inline m) ↔ Placed text Message.relabel m := by
  simp [Placed, relabel]

theorem MethodMessage.placed_stub_iff {name : Located String} {target : Option MessageRef} :
    Placed text MethodMessage.relabel (.stub name target) ↔ name.span.Aligned text := by
  simp [Placed, relabel, Located.relabel_aligning_iff]

theorem Method.placed_iff {method : Method} :
    Placed text Method.relabel method ↔
      method.name.span.Aligned text ∧
        (∀ m ∈ method.request, Placed text MethodMessage.relabel m) ∧
        (∀ m ∈ method.reply, Placed text MethodMessage.relabel m) ∧
        (∀ number ∈ method.id, number.span.Aligned text) ∧
        ∀ o ∈ method.options, Placed text OptionDecl.relabel o := by
  simp [Placed, relabel, Located.relabel_aligning_iff, optionMap_inj_left]

theorem Service.placed_iff {service : Service} :
    Placed text Service.relabel service ↔
      service.name.span.Aligned text ∧ (∀ m ∈ service.methods, Placed text Method.relabel m) ∧
        ∀ o ∈ service.options, Placed text OptionDecl.relabel o := by
  simp [Placed, relabel, Located.relabel_aligning_iff]

theorem ProjectArea.placed_iff {area : ProjectArea} :
    Placed text ProjectArea.relabel area ↔
      area.name.span.Aligned text ∧ ∀ o ∈ area.options, Placed text OptionDecl.relabel o := by
  simp [Placed, relabel, Located.relabel_aligning_iff]

theorem Project.placed_iff {project : Project} :
    Placed text Project.relabel project ↔
      project.name.span.Aligned text ∧ ∀ a ∈ project.areas, Placed text ProjectArea.relabel a := by
  simp [Placed, relabel, Located.relabel_aligning_iff]

theorem Import.placed_iff {item : Import} :
    Placed text Import.relabel item ↔
      item.file.span.Aligned text ∧ ∀ name ∈ item.localName, name.span.Aligned text := by
  simp [Placed, relabel, Located.relabel_aligning_iff, optionMap_inj_left]

theorem Schema.placed_iff {schema : Schema} :
    Placed text Schema.relabel schema ↔
      schema.package.name.span.Aligned text ∧
        (∀ i ∈ schema.imports, Placed text Import.relabel i) ∧
        (∀ o ∈ schema.options, Placed text OptionDecl.relabel o) ∧
        (∀ e ∈ schema.enums, Placed text EnumDef.relabel e) ∧
        (∀ m ∈ schema.messages, Placed text Message.relabel m) ∧
        (∀ s ∈ schema.services, Placed text Service.relabel s) ∧
        ∀ p ∈ schema.projects, Placed text Project.relabel p := by
  simp [Placed, relabel, Located.relabel_aligning_iff]

end Idl
