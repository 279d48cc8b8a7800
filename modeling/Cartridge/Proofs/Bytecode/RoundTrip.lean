import Cartridge.Bytecode.Reader
import Cartridge.Bytecode.Writer
import Cartridge.Proofs.Json.RoundTrip
import Mathlib.Data.List.Nodup

/-!
# Assemblies survive writing and reading

What a reader accepts, in whatever form, is written in one form that the reader accepts too and
reads as the same value (`Rereads`). The only values that cannot be read back are members with an
empty part or with a double colon too early, and no reader returns one
(`Member.fullName_of_parse?`).

**`Assembly.survives_writing`**: an assembly that was read is read again from the document that is
written for it, and from the text of that document.
-/

namespace Cartridge

/-! ### Reading back what was read -/

/-- A reader reads back what it has read, from its written form. -/
def Rereads {α : Type} (read : Json → Option α) (write : α → Json) : Prop :=
  ∀ ⦃j : Json⦄ ⦃a : α⦄, read j = some a → read (write a) = some a

namespace Rereads

variable {α : Type} {read : Json → Option α} {write : α → Json}

theorem of_forall (h : ∀ a, read (write a) = some a) : Rereads read write := fun _ a _ => h a

theorem list (h : Rereads read write) : Rereads (Json.list? read) (Json.ofList write) := by
  intro j as hj
  cases j with
  | array items =>
    simp only [Json.list?, Json.ofList] at hj ⊢
    induction items generalizing as with
    | nil =>
      cases hj
      rfl
    | cons item items ih =>
      rw [List.mapM_cons] at hj
      obtain ⟨a, ha, hj⟩ := Option.bind_eq_some_iff.1 hj
      obtain ⟨rest, hrest, hj⟩ := Option.bind_eq_some_iff.1 hj
      cases hj
      simp [h ha, ih hrest]
  | _ => cases hj

/-- A value may be missing if no value is written as `null`. -/
theorem nullable (h : Rereads read write) (hnull : ∀ a, (write a).isNull = false) :
    Rereads (Json.nullable? read) (Json.ofOption write) := by
  intro j o hj
  have hsome : ∀ {j' : Json}, j'.isNull = false →
      Json.nullable? read j' = (read j').map some := by
    intro j' hj'
    cases j' with
    | null => cases hj'
    | _ => rfl
  cases o with
  | none => rfl
  | some a =>
    have hread : ∃ j', read j' = some a := by
      cases j with
      | null => cases hj
      | _ =>
        obtain ⟨a', ha', heq⟩ := Option.map_eq_some_iff.1 hj
        cases heq
        exact ⟨_, ha'⟩
    obtain ⟨j', hj'⟩ := hread
    rw [Json.ofOption, hsome (hnull a), h hj']
    rfl

variable {r : Record} {name : String} {default a : α}

theorem of_required (h : Rereads read write) (hr : r.required name read = some a) :
    read (write a) = some a := by
  obtain ⟨j, -, hj⟩ := Option.bind_eq_some_iff.1 hr
  exact h hj

/-- The default has to be read back too, since it is written where it was missing. -/
theorem of_optional (h : Rereads read write) (hdefault : read (write default) = some default)
    (hr : r.optional name default read = some a) : read (write a) = some a := by
  unfold Record.optional at hr
  split at hr
  · exact h hr
  · cases hr
    exact hdefault

end Rereads

/-! ### Records -/

namespace Json

theorem named?_record (members : List (String × Json)) :
    named? (members.map fun m => (some m.1, m.2)) = some members := by
  induction members with
  | nil => rfl
  | cons m members ih =>
    rw [named?, List.map_cons, List.mapM_cons, ← named?, ih]
    rfl

end Json

/-- A record with distinct members is read as those that are fields. -/
theorem Record.ofJson?_record {names : List String} {members : List (String × Json)}
    (h : ((members.filter fun m => names.contains m.1).map (·.1)).Nodup) :
    Record.ofJson? names (Json.record members) =
      some (members.filter fun m => names.contains m.1) := by
  rw [Json.record, Record.ofJson?, Json.named?_record, Option.bind_some, if_pos h]

/-- A record with just the fields is read as it is. -/
theorem Record.ofJson?_fields {names : List String} {members : List (String × Json)}
    (hnames : members.map (·.1) = names) (hnodup : names.Nodup) :
    Record.ofJson? names (Json.record members) = some members := by
  subst hnames
  have hall : (members.filter fun m => (members.map (·.1)).contains m.1) = members :=
    List.filter_eq_self.2 fun m hm => List.contains_iff_mem.2 (List.mem_map_of_mem hm)
  rw [Record.ofJson?_record (by rwa [hall]), hall]

theorem Record.lookup_cons_of_ne {name other : String} (h : name ≠ other) (j : Json) (r : Record) :
    List.lookup name ((other, j) :: r) = List.lookup name r := by
  have hother : (name == other) = false := beq_false_of_ne h
  rw [List.lookup_cons, hother]

/-! ### Scalars -/

namespace Json

theorem natBelow?_nat {n bound : Nat} (h : n < bound) : (nat n).natBelow? bound = some n := by
  simp [natBelow?, nat, int, int?, h]

theorem uint8?_nat (n : UInt8) : uint8? (nat n.toNat) = some n := by
  rw [uint8?, natBelow?_nat n.toNat_lt, Option.map_some, UInt8.ofNat_toNat]

theorem uint16?_nat (n : UInt16) : uint16? (nat n.toNat) = some n := by
  rw [uint16?, natBelow?_nat n.toNat_lt, Option.map_some, UInt16.ofNat_toNat]

theorem uint32?_nat (n : UInt32) : uint32? (nat n.toNat) = some n := by
  rw [uint32?, natBelow?_nat n.toNat_lt, Option.map_some, UInt32.ofNat_toNat]

theorem int64?_int (n : Int64) : int64? (int n.toInt) = some n := by
  have hmin : Int64.minValue.toInt ≤ n.toInt := n.minValue_le_toInt
  have hmax : n.toInt ≤ Int64.maxValue.toInt := Int.le_of_lt_add_one n.toInt_lt
  simp only [int64?, int, int?, Option.bind_some, hmin, hmax, decide_true, Bool.and_self, if_true,
    Int64.ofInt_toInt]

end Json

/-- The first thing of a given name, among things with distinct names. -/
theorem find?_name {α : Type} (all : List α) {name : α → String} (hnodup : (all.map name).Nodup)
    {a : α} (ha : a ∈ all) : (all.find? fun b => name b == name a) = some a := by
  obtain ⟨b, hb⟩ : ∃ b, (all.find? fun b => name b == name a) = some b :=
    Option.isSome_iff_exists.1 (List.find?_isSome.2 ⟨a, ha, by simp⟩)
  have hname : name b = name a := by simpa using List.find?_some hb
  rw [hb, List.inj_on_of_nodup_map hnodup (List.mem_of_find?_eq_some hb) ha hname]

namespace Opcode

theorem mem_all (op : Opcode) : op ∈ all := by
  cases op <;> decide

theorem ofMnemonic?_mnemonic (op : Opcode) : ofMnemonic? op.mnemonic = some op :=
  find?_name all (by decide +kernel) op.mem_all

end Opcode

theorem Register.ofJson?_name (r : Register) : Register.ofJson? (.string r.name) = some r :=
  find?_name all (by decide) (by cases r <;> decide)

theorem Intrinsic.ofJson?_name (i : Intrinsic) : Intrinsic.ofJson? (.string i.name) = some i :=
  find?_name all (by decide) (by cases i <;> decide)

namespace Member

theorem append_of_splitColons? {cs owner name : List Char}
    (h : splitColons? cs = some (owner, name)) : cs = owner ++ ':' :: ':' :: name := by
  fun_induction splitColons? cs generalizing owner with
  | case1 cs =>
    cases h
    rfl
  | case2 c cs _ ih =>
    obtain ⟨⟨before, after⟩, hrest, heq⟩ := Option.map_eq_some_iff.1 h
    cases heq
    rw [ih hrest, List.cons_append]
  | case3 => cases h

/-- A member is written as the text that it was read from. -/
theorem fullName_of_parse? {text : String} {m : Member} (h : parse? text = some m) :
    m.fullName = text := by
  unfold parse? at h
  split at h
  · next owner name hsplit =>
    split at h
    · cases h
    · cases h
      apply String.toList_injective
      rw [append_of_splitColons? hsplit]
      simp [fullName]
  · cases h

theorem rereads : Rereads ofJson? toJson := by
  intro j m h
  obtain ⟨text, -, hparse⟩ := Option.bind_eq_some_iff.1 h
  rw [toJson, fullName_of_parse? hparse]
  exact hparse

end Member

theorem TypeName.rereads : Rereads TypeName.ofJson? TypeName.toJson := .of_forall fun _ => rfl

theorem Json.rereads_text : Rereads Json.text? Json.string := .of_forall fun _ => rfl

/-! ### Instructions -/

namespace Operand

theorem ofJson?_object (members : List (Option String × Json)) :
    ofJson? (.object members) = (Record.ofJson? ["kind", "value"] (.object members)).bind fun r =>
      (r.required "kind" (Json.tag? Json.isNull)).bind fun k => ofValue? k (r.lookup "value") :=
  rfl

theorem ofJson?_absent : ofJson? (toJson .absent) = some .absent := by
  rw [toJson, Json.record, ofJson?_object, ← Json.record, Record.ofJson?_record (by simp)]
  simp [Record.required, Json.tag?, ofValue?, Record.lookup_cons_of_ne]

theorem ofJson?_tagged (kind : String) (value : Json) :
    ofJson? (toJson.tagged kind value) = ofValue? kind (some value) := by
  rw [toJson.tagged, Json.record, ofJson?_object, ← Json.record,
    Record.ofJson?_fields (by rfl) (by simp)]
  simp [Record.required, Json.tag?, Record.lookup_cons_of_ne]

/-- A kind with a value is read by the reader of that kind. -/
theorem ofValue?_some {α : Type} (kind : String) (read : Json → Option α) (make : α → Operand)
    (hkind : ∀ v, ofValue? kind v = v.bind fun j => (read j).map make) {j : Json} {a : α}
    (h : read j = some a) : ofValue? kind (some j) = some (make a) := by
  rw [hkind, Option.bind_some, h, Option.map_some]

/-- An operand that was read is read back: the members that it names were read as well. -/
theorem ofJson?_of_ofValue? {kind : String} {value : Option Json} {op : Operand}
    (h : ofValue? kind value = some op) : ofJson? op.toJson = some op := by
  unfold ofValue? at h
  split at h
  case h_1 =>
    split at h
    · cases h
      exact ofJson?_absent
    · cases h
  case h_10 => cases h
  all_goals
    obtain ⟨j, -, h⟩ := Option.bind_eq_some_iff.1 h
    obtain ⟨a, ha, h⟩ := Option.map_eq_some_iff.1 h
    cases h
    rw [toJson, ofJson?_tagged]
  · exact ofValue?_some "int" Json.int64? .int (fun _ => rfl) (Json.int64?_int a)
  · exact ofValue?_some "local" Json.uint16? .localSlot (fun _ => rfl) (Json.uint16?_nat a)
  · exact ofValue?_some "arg" Json.uint16? .argument (fun _ => rfl) (Json.uint16?_nat a)
  · exact ofValue?_some "target" Json.uint32? .target (fun _ => rfl) (Json.uint32?_nat a)
  · exact ofValue?_some "field" Member.ofJson? .field (fun _ => rfl) (Member.rereads ha)
  · exact ofValue?_some "method" Member.ofJson? .method (fun _ => rfl) (Member.rereads ha)
  · exact ofValue?_some "type" TypeName.ofJson? .type (fun _ => rfl) (TypeName.rereads ha)
  · exact ofValue?_some "string" Json.text? .string (fun _ => rfl) (Json.rereads_text ha)

theorem rereads : Rereads ofJson? toJson := by
  intro j op h
  unfold ofJson? at h
  split at h
  · obtain ⟨kind, -, h⟩ := Option.bind_eq_some_iff.1 h
    exact ofJson?_of_ofValue? h
  · cases h
  · obtain ⟨r, -, h⟩ := Option.bind_eq_some_iff.1 h
    obtain ⟨kind, -, h⟩ := Option.bind_eq_some_iff.1 h
    exact ofJson?_of_ofValue? h

end Operand

namespace Instruction

theorem ofJson?_record {offset opcode operand : Json} {i : Instruction}
    (hoffset : offset.uint32? = some i.offset) (hopcode : Opcode.ofJson? opcode = some i.opcode)
    (hoperand : Operand.ofJson? operand = some i.operand) :
    ofJson? (.record [("offset", offset), ("opcode", opcode), ("operand", operand)]) = some i := by
  rw [ofJson?, Record.ofJson?_fields (by rfl) (by simp)]
  simp [Record.required, Record.optional, Record.lookup_cons_of_ne, hoffset, hopcode, hoperand]

theorem rereads : Rereads ofJson? toJson := by
  intro j i h
  obtain ⟨r, -, h⟩ := Option.bind_eq_some_iff.1 h
  obtain ⟨offset, -, h⟩ := Option.bind_eq_some_iff.1 h
  obtain ⟨opcode, -, h⟩ := Option.bind_eq_some_iff.1 h
  obtain ⟨operand, hoperand, h⟩ := Option.bind_eq_some_iff.1 h
  cases h
  -- Any offset and opcode can be read back; of operands, those that have been read.
  exact ofJson?_record (Json.uint32?_nat offset) (Opcode.ofMnemonic?_mnemonic opcode)
    (Operand.rereads.of_optional Operand.ofJson?_absent hoperand)

end Instruction

/-! ### Markers -/

namespace CallMarker

/-- A marker is read from its kind and its fields. -/
theorem ofJson?_record (level : Nat) (kind : String) {fields : List (String × Json)}
    (hnames : ∀ m ∈ fields, m.1 ≠ "kind")
    (hplain : ∀ m ∈ fields, m.2.isPlain (Json.maxDepth - level) = true) :
    ofJson? level (.record (("kind", .string kind) :: fields)) =
      ofFields? kind (.record fields) := by
  have hfilter : ((("kind", Json.string kind) :: fields).filter fun m => ["kind"].contains m.1) =
      [("kind", .string kind)] := by
    rw [List.filter_cons_of_pos (by simp), List.filter_eq_nil_iff.2]
    exact fun m hm => by simpa using hnames m hm
  have hkind : Record.ofJson? ["kind"] (.record (("kind", .string kind) :: fields)) =
      some [("kind", .string kind)] := by
    rw [Record.ofJson?_record (by rw [hfilter]; exact List.nodup_singleton _), hfilter]
  have hfields : ((("kind", Json.string kind) :: fields).map fun m => (some m.1, m.2)).filter
      (fun m => m.1 != some "kind") = fields.map fun m => (some m.1, m.2) := by
    rw [List.map_cons, List.filter_cons_of_neg (by simp), List.filter_eq_self]
    exact List.forall_mem_map.2 fun m hm => by simpa using hnames m hm
  have hall : ((("kind", Json.string kind) :: fields).all fun m =>
      m.1 == "kind" || m.2.isPlain (Json.maxDepth - level)) = true := by
    rw [List.all_eq_true]
    exact List.forall_mem_cons.2 ⟨rfl, fun m hm => by simp [hplain m hm]⟩
  rw [Json.record] at hkind ⊢
  simp only [ofJson?, Json.named?_record, hkind, hfields, hall, Option.bind_eq_bind,
    Option.bind_some, if_true]
  have hrequired : Record.required [("kind", Json.string kind)] "kind" Json.text? = some kind := by
    simp [Record.required, Json.text?]
  rw [hrequired, Option.bind_some, Json.record]

/-- A marker with one field. -/
theorem single?_record {α : Type} {name : String} {read : Json → Option α} {make : α → CallMarker}
    {j : Json} {a : α} (h : read j = some a) :
    single? name read make (.record [(name, j)]) = some (make a) := by
  rw [single?, Record.ofJson?_record (by simp)]
  simp [Record.required, h]

theorem ofJson?_toJson (level : Nat) (m : CallMarker) : ofJson? level m.toJson = some m := by
  cases m with
  | ignoreCall => exact ofJson?_record level "ignore_call" (by simp) (by simp)
  | storeToSymbol symbol =>
    rw [toJson, ofJson?_record level _ (by simp) (by simp [Json.isPlain])]
    exact single?_record rfl
  | loadFromSymbol symbol =>
    rw [toJson, ofJson?_record level _ (by simp) (by simp [Json.isPlain])]
    exact single?_record rfl
  | loadToRegister register =>
    rw [toJson, ofJson?_record level _ (by simp) (by simp [Json.isPlain])]
    exact single?_record register.ofJson?_name
  | replaceWithEntry intrinsic =>
    rw [toJson, ofJson?_record level _ (by simp) (by simp [Json.isPlain])]
    exact single?_record intrinsic.ofJson?_name
  | alwaysInline => exact ofJson?_record level "always_inline" (by simp) (by simp)

end CallMarker

/-! ### Declarations -/

namespace Parameter

theorem rereads : Rereads ofJson? toJson := by
  refine .of_forall fun p => ?_
  rw [toJson, ofJson?, Record.ofJson?_fields (by rfl) (by simp)]
  simp [Record.required, Record.lookup_cons_of_ne, Json.text?, TypeName.ofJson?, TypeName.toJson]

end Parameter

namespace RomData

theorem ofJson?_record {elementType bytes : Json} {d : RomData}
    (helementType : TypeName.ofJson? elementType = some d.elementType)
    (hbytes : Json.list? Json.uint8? bytes = some d.bytes) :
    ofJson? (.record [("element_type", elementType), ("bytes", bytes)]) = some d := by
  rw [ofJson?, Record.ofJson?_fields (by rfl) (by simp)]
  simp [Record.required, Record.lookup_cons_of_ne, helementType, hbytes]

theorem rereads : Rereads ofJson? toJson := by
  have hbytes : Rereads Json.uint8? fun b => .nat b.toNat := .of_forall Json.uint8?_nat
  intro j d h
  obtain ⟨r, -, h⟩ := Option.bind_eq_some_iff.1 h
  obtain ⟨elementType, -, h⟩ := Option.bind_eq_some_iff.1 h
  obtain ⟨bytes, hread, h⟩ := Option.bind_eq_some_iff.1 h
  cases h
  exact ofJson?_record rfl (hbytes.list.of_required hread)

end RomData

namespace FieldDecl

theorem ofJson?_record {name type isStatic romData aliases : Json} {f : FieldDecl}
    (hname : name.text? = some f.name) (htype : TypeName.ofJson? type = some f.type)
    (hstatic : isStatic.bool? = some f.isStatic)
    (hrom : Json.nullable? RomData.ofJson? romData = some f.romData)
    (haliases : Json.list? Json.text? aliases = some f.aliases) :
    ofJson? (.record [("name", name), ("type", type), ("is_static", isStatic),
      ("rom_data", romData), ("aliases", aliases)]) = some f := by
  rw [ofJson?, Record.ofJson?_fields (by rfl) (by simp)]
  simp [Record.required, Record.optional, Record.lookup_cons_of_ne, hname, htype, hstatic, hrom,
    haliases]

theorem rereads : Rereads ofJson? toJson := by
  have hrom : Rereads (Json.nullable? RomData.ofJson?) (Json.ofOption RomData.toJson) :=
    RomData.rereads.nullable fun _ => rfl
  intro j f h
  obtain ⟨r, -, h⟩ := Option.bind_eq_some_iff.1 h
  obtain ⟨name, -, h⟩ := Option.bind_eq_some_iff.1 h
  obtain ⟨type, -, h⟩ := Option.bind_eq_some_iff.1 h
  obtain ⟨isStatic, -, h⟩ := Option.bind_eq_some_iff.1 h
  obtain ⟨romData, hromData, h⟩ := Option.bind_eq_some_iff.1 h
  obtain ⟨aliases, haliases, h⟩ := Option.bind_eq_some_iff.1 h
  cases h
  exact ofJson?_record rfl rfl rfl (hrom.of_optional rfl hromData)
    (Json.rereads_text.list.of_optional rfl haliases)

end FieldDecl

namespace MethodDecl

theorem ofJson?_record {name parameters returnType locals body marker : Json} {m : MethodDecl}
    (hname : name.text? = some m.name)
    (hparameters : Json.list? Parameter.ofJson? parameters = some m.parameters)
    (hreturn : TypeName.ofJson? returnType = some m.returnType)
    (hlocals : Json.list? TypeName.ofJson? locals = some m.locals)
    (hbody : Json.list? Instruction.ofJson? body = some m.body)
    (hmarker : Json.nullable? (CallMarker.ofJson? markerLevel) marker = some m.marker) :
    ofJson? (.record [("name", name), ("parameters", parameters), ("return_type", returnType),
      ("locals", locals), ("body", body), ("marker", marker)]) = some m := by
  rw [ofJson?, Record.ofJson?_fields (by rfl) (by simp)]
  simp [Record.required, Record.optional, Record.lookup_cons_of_ne, hname, hparameters, hreturn,
    hlocals, hbody, hmarker]

theorem rereads : Rereads ofJson? toJson := by
  have hmarkers : Rereads (Json.nullable? (CallMarker.ofJson? markerLevel))
      (Json.ofOption CallMarker.toJson) :=
    (Rereads.of_forall (CallMarker.ofJson?_toJson markerLevel)).nullable fun m => by
      cases m <;> rfl
  intro j m h
  obtain ⟨r, -, h⟩ := Option.bind_eq_some_iff.1 h
  obtain ⟨name, -, h⟩ := Option.bind_eq_some_iff.1 h
  obtain ⟨parameters, hparameters, h⟩ := Option.bind_eq_some_iff.1 h
  obtain ⟨returnType, -, h⟩ := Option.bind_eq_some_iff.1 h
  obtain ⟨locals, hlocals, h⟩ := Option.bind_eq_some_iff.1 h
  obtain ⟨body, hbody, h⟩ := Option.bind_eq_some_iff.1 h
  obtain ⟨marker, hmarker, h⟩ := Option.bind_eq_some_iff.1 h
  cases h
  exact ofJson?_record rfl (Parameter.rereads.list.of_optional rfl hparameters) rfl
    (TypeName.rereads.list.of_optional rfl hlocals)
    (Instruction.rereads.list.of_optional rfl hbody) (hmarkers.of_optional rfl hmarker)

end MethodDecl

namespace TypeDecl

theorem ofJson?_record {name fields methods primitiveSize : Json} {t : TypeDecl}
    (hname : TypeName.ofJson? name = some t.name)
    (hfields : Json.list? FieldDecl.ofJson? fields = some t.fields)
    (hmethods : Json.list? MethodDecl.ofJson? methods = some t.methods)
    (hsize : Json.nullable? Json.uint16? primitiveSize = some t.primitiveSize) :
    ofJson? (.record [("name", name), ("fields", fields), ("methods", methods),
      ("primitive_size", primitiveSize)]) = some t := by
  rw [ofJson?, Record.ofJson?_fields (by rfl) (by simp)]
  simp [Record.required, Record.optional, Record.lookup_cons_of_ne, hname, hfields, hmethods, hsize]

theorem rereads : Rereads ofJson? toJson := by
  have hsizes : Rereads (Json.nullable? Json.uint16?) (Json.ofOption fun n => .nat n.toNat) :=
    (Rereads.of_forall Json.uint16?_nat).nullable fun _ => rfl
  intro j t h
  obtain ⟨r, -, h⟩ := Option.bind_eq_some_iff.1 h
  obtain ⟨name, -, h⟩ := Option.bind_eq_some_iff.1 h
  obtain ⟨fields, hfields, h⟩ := Option.bind_eq_some_iff.1 h
  obtain ⟨methods, hmethods, h⟩ := Option.bind_eq_some_iff.1 h
  obtain ⟨primitiveSize, hsize, h⟩ := Option.bind_eq_some_iff.1 h
  cases h
  exact ofJson?_record rfl (FieldDecl.rereads.list.of_optional rfl hfields)
    (MethodDecl.rereads.list.of_optional rfl hmethods) (hsizes.of_optional rfl hsize)

end TypeDecl

namespace Assembly

theorem ofJson?_record {name types entryPoint : Json} {a : Assembly}
    (hname : name.text? = some a.name) (htypes : Json.list? TypeDecl.ofJson? types = some a.types)
    (hentry : Json.nullable? Member.ofJson? entryPoint = some a.entryPoint) :
    ofJson? (.record [("name", name), ("types", types), ("entry_point", entryPoint)]) =
      some a := by
  rw [ofJson?, Record.ofJson?_fields (by rfl) (by simp)]
  simp [Record.required, Record.optional, Record.lookup_cons_of_ne, hname, htypes, hentry]

theorem rereads : Rereads ofJson? toJson := by
  have hentries : Rereads (Json.nullable? Member.ofJson?) (Json.ofOption Member.toJson) :=
    Member.rereads.nullable fun _ => rfl
  intro j a h
  obtain ⟨r, -, h⟩ := Option.bind_eq_some_iff.1 h
  obtain ⟨name, -, h⟩ := Option.bind_eq_some_iff.1 h
  obtain ⟨types, htypes, h⟩ := Option.bind_eq_some_iff.1 h
  obtain ⟨entryPoint, hentry, h⟩ := Option.bind_eq_some_iff.1 h
  cases h
  exact ofJson?_record rfl (TypeDecl.rereads.list.of_optional rfl htypes)
    (hentries.of_optional rfl hentry)

/-! ### Texts -/

theorem isIntegral_operand (op : Operand) : op.toJson.isIntegral = true := by
  cases op <;> simp [Operand.toJson, Operand.toJson.tagged, Member.toJson, TypeName.toJson]

theorem isIntegral_marker (m : CallMarker) : m.toJson.isIntegral = true := by
  cases m <;> simp [CallMarker.toJson]

theorem isIntegral_field (f : FieldDecl) : f.toJson.isIntegral = true := by
  simp [FieldDecl.toJson, RomData.toJson, TypeName.toJson]

theorem isIntegral_method (m : MethodDecl) : m.toJson.isIntegral = true := by
  simp [MethodDecl.toJson, Parameter.toJson, Instruction.toJson, TypeName.toJson,
    isIntegral_operand, isIntegral_marker]

/-- No number of a written assembly is a decimal. -/
theorem isIntegral_toJson (a : Assembly) : a.toJson.isIntegral = true := by
  simp [toJson, TypeDecl.toJson, TypeName.toJson, Member.toJson, isIntegral_field,
    isIntegral_method]

theorem parse_eq_ok {text : String} {a : Assembly} :
    parse text = .ok a ↔ ∃ j, Json.parse? text = some j ∧ ofJson? j = some a := by
  unfold parse
  rw [← Option.bind_eq_some_iff]
  cases (Json.parse? text).bind ofJson? <;> simp

/-- **Assemblies survive writing and reading**: an assembly that was read from any document is read
again from the document that is written for it, and from the text of that document. -/
theorem survives_writing :
    (∀ j a, ofJson? j = some a → ofJson? a.toJson = some a) ∧
      ∀ text a, parse text = .ok a → parse a.toJson.compress = .ok a := by
  refine ⟨fun j a h => rereads h, fun text a h => ?_⟩
  obtain ⟨j, -, hj⟩ := parse_eq_ok.1 h
  exact parse_eq_ok.2 ⟨a.toJson, Json.parse?_compress a.isIntegral_toJson, rereads hj⟩

/-- Records as arrays and as objects, with members in another order, unknown members and missing
fields; ROM data, an alias, two forms of operands and two of markers. -/
def game : Json :=
  let main : Json := .record
    [("body", .array
      [.array [.int 0, .string "ldc.i4", .array [.string "int", .int (-5)]],
       .record [("opcode", .string "call"), ("offset", .int 5), ("line", .number (.decimal "1e2")),
         ("operand", .record [("value", .string "Game::Set::Tempo"), ("kind", .string "method")])],
       .array [.int 10, .string "ret"]]),
     ("name", .string "Main")]
  let fields : Json := .array
    [.array [.string "tempo", .string "System.Byte", .bool true, .null,
      .array [.string "ALIAS_TEMPO"]],
     .record [("rom_data", .array [.string "System.Byte", .array [.int 0, .int 255]]),
       ("type", .string "RomData"), ("name", .string "notes")]]
  let wait : Json := .array
    [.string "Wait", .array [], .string "System.Void", .array [], .array [],
     .array [.string "store_to_symbol", .string "WSYNC"]]
  let length : Json := .record
    [("name", .string "Length"), ("marker", .record [("text", .bool true),
      ("intrinsic", .record [("rom_data_length", .null)]), ("kind", .string "replace_with_entry")])]
  .array [.string "Game", .array [.record [("methods", .array [main, wait, length]),
    ("name", .string "Game"), ("fields", fields), ("comment", .brokenString)]]]

/-- What `game` is read as. -/
def gameAssembly : Assembly :=
  { name := "Game"
    types := [
      { name := ⟨"Game"⟩
        fields := [
          { name := "tempo", type := .byte, isStatic := true, aliases := ["ALIAS_TEMPO"] },
          { name := "notes", type := ⟨"RomData"⟩, romData := some ⟨.byte, [0, 255]⟩ }]
        methods := [
          { name := "Main"
            body := [⟨0, .ldc, .int (-5)⟩, ⟨5, .call, .method ⟨⟨"Game"⟩, "Set::Tempo"⟩⟩,
              ⟨10, .ret, .absent⟩] },
          { name := "Wait", marker := some (.storeToSymbol "WSYNC") },
          { name := "Length", marker := some (.replaceWithEntry .romDataLength) }] }] }

/-- The forms of `game`, and a text with blanks, an escape and a decimal where it is ignored. -/
theorem survives_writing_game :
    (ofJson? game = some gameAssembly ∧ ofJson? gameAssembly.toJson = some gameAssembly) ∧
      let text := "\x7b \"build\": 1.5, \"name\": \"G\\u00e4me\", \"types\": [[\"Game\", []]] \x7d"
      let a : Assembly := { name := "Gäme", types := [{ name := ⟨"Game"⟩ }] }
      parse text = .ok a ∧ parse a.toJson.compress = .ok a := by
  have hgame : ofJson? game = some gameAssembly := by decide +kernel
  refine ⟨⟨hgame, survives_writing.1 game gameAssembly hgame⟩, ?_⟩
  intro text a
  have htext : parse text = .ok a := by decide +kernel
  exact ⟨htext, survives_writing.2 text a htext⟩

end Assembly

end Cartridge
