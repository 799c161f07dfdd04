import RttHttp.Registry.Reflect

/-! # What the probes of a type say

The layout of a type is what its probes say about it without looking at the
registry. Reflection succeeds exactly when there is a layout and the types of all
its parts can be used.
-/

namespace RttHttp.Registry

open Model (TypeRegistration bind_eq_ok)

variable {Codec : Type}

inductive Layout where
  | sequence (element : Part) (length : Option Int)
  | record (fields : List (Bytes × Part))

/-- The fields of a structure, when all names are valid and have a member. -/
def fieldLayout (probe : Probe) : List Bytes → (seen : List Bytes) → Option (List (Bytes × Part))
  | [], _ => some []
  | name :: rest, seen =>
      if name.isEmpty ∨ validUtf8 name = false ∨ name ∈ seen then none
      else match probe.member name with
        | .ok (some part) => (fieldLayout probe rest (name :: seen)).map ((name, part) :: ·)
        | _ => none

/-- The fixed length of a sequence, or `some none` when it can be resized. -/
def sequenceLength (probe : Probe) : Option (Option Int) :=
  match probe.size with
  | .ok (some size) =>
      if size < 0 then none
      else match probe.resize, probe.sizeAgain with
        | .ok true, _ => some none
        | .ok false, .ok length => some (some length)
        | _, _ => none
  | _ => none

def recordLayout (probe : Probe) : Option Layout :=
  match probe.memberNames with
  | .ok names => if names.isEmpty then none else (fieldLayout probe names []).map .record
  | .error _ => none

def layoutOf (probe : Probe) : Option Layout :=
  match probe.memberFactory, probe.buildValue, probe.element with
  | .ok true, .ok (some true), .ok (some element) => (sequenceLength probe).map (.sequence element)
  | .ok true, .ok (some true), .ok none => recordLayout probe
  | _, _, _ => none

/-- A part that reflection can use when the types of `known` have codecs. -/
structure Usable (typeName : TypeId → Bytes) (known : Set TypeId) (part : Part) : Prop where
  assignable : part.assignable = true
  type : ∃ type ∈ known, part.type = some type ∧ typeName type ≠ bytes "Void"

namespace Layout

def parts : Layout → List Part
  | .sequence element _ => [element]
  | .record fields => fields.map Prod.snd

end Layout

variable (typeName : TypeId → Bytes)

/-- The name of the type of a part. -/
def Part.named (part : Part) : Bytes := (part.type.map typeName).getD []

def Layout.descriptor : Layout → JsonObject
  | .sequence element length => sequenceDescriptor (element.named typeName) length
  | .record fields => recordDescriptor (fields.map fun field => (field.1, field.2.named typeName))

/-- The registration that results from a layout. -/
def Layout.registration (layout : Layout) (type : TypeId) : TypeRegistration :=
  reflectedRegistration (reflectionIdentity (typeName type)) (typeName type)
    (layout.descriptor typeName) (layout.parts.map fun part => part.named typeName)

/-! ## Shapes represent layouts -/

/-- A member made of a named part. -/
structure Represents (codecOf : Option TypeId → Option Codec) (member : Member Codec)
    (field : Bytes × Part) : Prop where
  name : member.name = field.1
  type : field.2.type = some member.type
  codec : codecOf (some member.type) = some member.codec

def RepresentsLayout (codecOf : Option TypeId → Option Codec) : Shape Codec → Layout → Prop
  | .sequence member length, .sequence element found =>
      Represents codecOf member ([], element) ∧ length = found
  | .record members, .record fields => List.Forall₂ (Represents codecOf) members fields
  | _, _ => False

section Shapes

variable {typeName} {codecOf : Option TypeId → Option Codec} {probe : Probe}

/-- The types that have a codec. -/
def coded (codecOf : Option TypeId → Option Codec) : Set TypeId :=
  {type | (codecOf (some type)).isSome}

theorem addMember_eq_some {name : Bytes} {value : Option Part} {member : Member Codec}
    (h : addMember typeName codecOf name value = some member) :
    ∃ part, value = some part ∧ Usable typeName (coded codecOf) part ∧
      Represents codecOf member (name, part) := by
  unfold addMember at h
  split at h
  next => cases h
  next part =>
    split at h
    next type codec htype hcodec =>
      split at h
      next husable =>
        cases h
        rw [htype] at hcodec
        refine ⟨part, rfl, ⟨husable.1, type, ?_, htype, husable.2⟩, rfl, htype, hcodec⟩
        simp [coded, hcodec]
      next => cases h
    next => cases h

theorem addMember_of_usable {part : Part} (name : Bytes)
    (h : Usable typeName (coded codecOf) part) :
    ∃ member, addMember typeName codecOf name (some part) = some member ∧
      Represents codecOf member (name, part) := by
  obtain ⟨hassignable, type, hknown, htype, hvoid⟩ := h
  obtain ⟨codec, hcodec⟩ := Option.isSome_iff_exists.mp hknown
  refine ⟨⟨name, type, codec⟩, ?_, rfl, htype, hcodec⟩
  simp [addMember, htype, hcodec, hassignable, hvoid]

theorem caught_eq_ok {α : Type} {probed : Probed α} {value : α} :
    caught probed = .ok value ↔ probed = .ok value := by
  cases probed with
  | ok found => simp [caught]
  | error fault => cases fault <;> simp [caught]

theorem reflectFields_eq_ok {names seen : List Bytes} {members result : List (Member Codec)}
    (h : reflectFields typeName codecOf probe names seen members = .ok result) :
    ∃ fields added, fieldLayout probe names seen = some fields ∧ result = members ++ added ∧
      List.Forall₂ (Represents codecOf) added fields ∧
      ∀ field ∈ fields, Usable typeName (coded codecOf) field.2 := by
  induction names generalizing seen members with
  | nil =>
      cases h
      exact ⟨[], [], rfl, by simp, .nil, by simp⟩
  | cons name rest ih =>
      unfold reflectFields at h
      split at h
      next => cases h
      next hname =>
        obtain ⟨value, hvalue, h⟩ := bind_eq_ok.mp h
        split at h
        next => cases h
        next member hmember =>
          obtain ⟨part, rfl, husable, hrepresents⟩ := addMember_eq_some hmember
          obtain ⟨fields, added, hfields, rfl, hadded, hall⟩ := ih h
          refine ⟨(name, part) :: fields, member :: added, ?_, by simp, .cons hrepresents hadded, ?_⟩
          · rw [fieldLayout, if_neg hname, caught_eq_ok.mp hvalue]
            simp [hfields]
          · exact List.forall_mem_cons.mpr ⟨husable, hall⟩

theorem reflectFields_of_layout {names seen : List Bytes} {fields : List (Bytes × Part)}
    (members : List (Member Codec)) (hfields : fieldLayout probe names seen = some fields)
    (hall : ∀ field ∈ fields, Usable typeName (coded codecOf) field.2) :
    ∃ added, reflectFields typeName codecOf probe names seen members = .ok (members ++ added) ∧
      List.Forall₂ (Represents codecOf) added fields := by
  induction names generalizing seen members fields with
  | nil =>
      cases hfields
      exact ⟨[], by simp [reflectFields], .nil⟩
  | cons name rest ih =>
      unfold fieldLayout at hfields
      split at hfields
      next => cases hfields
      next hname =>
        split at hfields
        next part hpart =>
          obtain ⟨others, hothers, rfl⟩ := Option.map_eq_some_iff.mp hfields
          obtain ⟨husable, hrest⟩ := List.forall_mem_cons.mp hall
          obtain ⟨member, hmember, hrepresents⟩ := addMember_of_usable name husable
          obtain ⟨added, hadded, hmatch⟩ := ih (members ++ [member]) hothers hrest
          refine ⟨member :: added, ?_, .cons hrepresents hmatch⟩
          rw [reflectFields, if_neg hname, caught_eq_ok.mpr hpart]
          simpa [bind, Except.bind, hmember] using hadded
        next => cases hfields

theorem reflectSequence_eq_ok {element : Part} {member : Member Codec} {length : Option Int}
    (h : reflectSequence typeName codecOf probe element = .ok (member, length)) :
    sequenceLength probe = some length ∧ Usable typeName (coded codecOf) element ∧
      Represents codecOf member ([], element) := by
  unfold reflectSequence at h
  split at h
  next => cases h
  next found hfound =>
    obtain ⟨part, hpart, husable, hrepresents⟩ := addMember_eq_some hfound
    cases hpart
    obtain ⟨size, hsize, h⟩ := bind_eq_ok.mp h
    rw [caught_eq_ok] at hsize
    unfold sequenceLength
    cases size with
    | none => cases h
    | some size =>
        simp only [hsize] at h ⊢
        split at h
        next => cases h
        next hpositive =>
          obtain ⟨resized, hresized, h⟩ := bind_eq_ok.mp h
          rw [caught_eq_ok] at hresized
          rw [if_neg hpositive, hresized]
          cases resized with
          | true =>
              cases h
              exact ⟨rfl, husable, hrepresents⟩
          | false =>
              obtain ⟨again, hagain, h⟩ := bind_eq_ok.mp h
              rw [caught_eq_ok] at hagain
              cases h
              rw [hagain]
              exact ⟨rfl, husable, hrepresents⟩

theorem reflectSequence_of_layout {element : Part} {length : Option Int}
    (hlength : sequenceLength probe = some length) (husable : Usable typeName (coded codecOf) element) :
    ∃ member, reflectSequence typeName codecOf probe element = .ok (member, length) ∧
      Represents codecOf member ([], element) := by
  obtain ⟨member, hmember, hrepresents⟩ := addMember_of_usable [] husable
  refine ⟨member, ?_, hrepresents⟩
  unfold sequenceLength at hlength
  split at hlength
  next size hsize =>
    split at hlength
    next => cases hlength
    next hpositive =>
      split at hlength
      next hresized =>
        cases hlength
        simp [reflectSequence, hmember, hsize, hpositive, hresized, caught, bind, Except.bind, pure,
          Except.pure]
      next again hresized hagain =>
        cases hlength
        simp [reflectSequence, hmember, hsize, hpositive, hresized, hagain, caught, bind, Except.bind,
          pure, Except.pure]
      next => cases hlength
  next => cases hlength

/-- Reflection that succeeds found a layout, and could use all its parts. -/
theorem reflectShape_eq_ok {shape : Shape Codec}
    (h : reflectShape typeName codecOf probe = .ok shape) :
    ∃ layout, layoutOf probe = some layout ∧ RepresentsLayout codecOf shape layout ∧
      ∀ part ∈ layout.parts, Usable typeName (coded codecOf) part := by
  obtain ⟨factory, hfactory, h⟩ := bind_eq_ok.mp h
  rw [caught_eq_ok] at hfactory
  split at h
  next => cases h
  next htrue =>
    obtain ⟨prototype, hprototype, h⟩ := bind_eq_ok.mp h
    rw [caught_eq_ok] at hprototype
    split at h
    next => cases h
    next hassignable =>
      obtain rfl : factory = true := by simpa using htrue
      obtain rfl := not_not.mp hassignable
      obtain ⟨element, helement, h⟩ := bind_eq_ok.mp h
      rw [caught_eq_ok] at helement
      unfold layoutOf
      rw [hfactory, hprototype, helement]
      cases element with
      | some element =>
          obtain ⟨⟨member, length⟩, hsequence, h⟩ := bind_eq_ok.mp h
          cases h
          obtain ⟨hlength, husable, hrepresents⟩ := reflectSequence_eq_ok hsequence
          refine ⟨.sequence element length, by simp [hlength], ⟨hrepresents, rfl⟩, ?_⟩
          exact List.forall_mem_singleton.mpr husable
      | none =>
          obtain ⟨names, hnames, h⟩ := bind_eq_ok.mp h
          rw [caught_eq_ok] at hnames
          split at h
          next => cases h
          next hempty =>
            obtain ⟨members, hmembers, h⟩ := bind_eq_ok.mp h
            cases h
            obtain ⟨fields, added, hfields, rfl, hadded, hall⟩ := reflectFields_eq_ok hmembers
            refine ⟨.record fields, ?_, hadded, List.forall_mem_map.mpr hall⟩
            simp [recordLayout, hnames, hempty, hfields]

/-- Reflection succeeds when it can use all parts of the layout. -/
theorem reflectShape_of_layout {layout : Layout} (hlayout : layoutOf probe = some layout)
    (hall : ∀ part ∈ layout.parts, Usable typeName (coded codecOf) part) :
    ∃ shape, reflectShape typeName codecOf probe = .ok shape ∧
      RepresentsLayout codecOf shape layout := by
  unfold layoutOf at hlayout
  split at hlayout
  next element hfactory hprototype helement =>
    obtain ⟨length, hlength, rfl⟩ := Option.map_eq_some_iff.mp hlayout
    obtain ⟨member, hmember, hrepresents⟩ :=
      reflectSequence_of_layout hlength (hall element (by simp [Layout.parts]))
    refine ⟨.sequence member length, ?_, hrepresents, rfl⟩
    simp [reflectShape, hfactory, hprototype, helement, hmember, caught, bind, Except.bind, pure,
      Except.pure]
  next hfactory hprototype helement =>
    unfold recordLayout at hlayout
    split at hlayout
    next names hnames =>
      split at hlayout
      next => cases hlayout
      next hempty =>
        obtain ⟨fields, hfields, rfl⟩ := Option.map_eq_some_iff.mp hlayout
        obtain ⟨added, hadded, hmatch⟩ :=
          reflectFields_of_layout [] hfields (List.forall_mem_map.mp hall)
        refine ⟨.record added, ?_, hmatch⟩
        simp only [List.nil_append] at hadded
        simp [reflectShape, reflectRecord, hfactory, hprototype, helement, hnames, hempty, hadded,
          caught, bind, Except.bind, pure, Except.pure]
    next => cases hlayout
  next => cases hlayout

/-- The registration of a shape is the one that results from its layout. -/
theorem RepresentsLayout.registration {shape : Shape Codec} {layout : Layout}
    (h : RepresentsLayout codecOf shape layout) (type : TypeId) :
    shape.registration typeName type (reflectionIdentity (typeName type)) =
      layout.registration typeName type := by
  have hnamed : ∀ {member : Member Codec} {field : Bytes × Part},
      Represents codecOf member field → field.2.named typeName = typeName member.type := by
    intro member field hrepresents
    simp [Part.named, hrepresents.type]
  cases shape with
  | sequence member length =>
      cases layout with
      | sequence element found =>
          obtain ⟨hrepresents, rfl⟩ := h
          simp [Shape.registration, Layout.registration, Shape.descriptor, Layout.descriptor,
            Shape.members, Layout.parts, hnamed hrepresents]
      | record fields => exact h.elim
  | record members =>
      cases layout with
      | sequence element found => exact h.elim
      | record fields =>
          have hpairs : members.map (fun member => (member.name, typeName member.type)) =
              fields.map fun field => (field.1, field.2.named typeName) := by
            induction h with
            | nil => rfl
            | cons hhead _ ih => simp [hhead.name, hnamed hhead, ih]
          have htypes : members.map (fun member => typeName member.type) =
              (fields.map Prod.snd).map fun part => part.named typeName := by
            simpa [List.map_map, Function.comp_def] using congrArg (List.map Prod.snd) hpairs
          simp only [Shape.registration, Layout.registration, Shape.descriptor, Layout.descriptor,
            Shape.members, Layout.parts, hpairs, htypes]

end Shapes

end RttHttp.Registry
