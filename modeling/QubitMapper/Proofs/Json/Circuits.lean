import QubitMapper.Circuit.Kernel.Json
import QubitMapper.Circuit.Program.Json
import QubitMapper.Proofs.Json.Documents
import QubitMapper.Proofs.Kernel.Verify

/-!
# Programs and kernels are read back

Documents give back the programs and kernels they were made of. The members of a kind stand beside
the qubits of its instruction, so that those are taken out first and the others are held back until
the tag is known; what is held back has to be sound, which the exactness of the parameters sees to.

## Main results

* `OpKind.ofTag?_carried`: a kind from its tag and the members beside that.
* `Instruction.ofJson?_toJson`, `Operation.ofJson?_toJson`, `Program.ofJson?_toJson`,
  `Kernel.ofJson?_toJson`: what is read back from a document.
* `Json.documents_read_back`: what is read back from a text.
-/

namespace QubitMapper

/-! ## Kinds -/

namespace OpKind

/-- The parameters of a kind. -/
def params : OpKind → List Float
  | gate _ params => params
  | _ => []

/-- The tag of a kind. -/
def tag : OpKind → String
  | alloc => "alloc"
  | gate _ _ => "gate"
  | measure _ => "measure"
  | reset => "reset"
  | swap => "swap"
  | sink => "sink"
  | unknown _ => "opaque"

/-- The members of a kind beside its tag. -/
def carried (kind : OpKind) : List (String × Json) := kind.members.tail

theorem members_eq (kind : OpKind) : kind.members = ("kind", .text kind.tag) :: kind.carried := by
  cases kind <;> rfl

/-- A kind is read back from its tag and what is beside that. -/
theorem ofTag?_carried {kind : OpKind} :
    ofTag? kind.tag (.record kind.carried) = some kind ↔ ∀ x ∈ kind.params, Json.Exact x := by
  cases kind with
  | gate name params =>
      rw [tag, carried, members, ofTag?]
      simp only [List.cons_append, List.nil_append, List.tail_cons]
      rw [Json.fields_record (by split <;> simp) (by split <;> simp)]
      cases params with
      | nil => simp [OpKind.params, Json.required, Json.defaulted, Json.text?, Json.text]
      | cons x rest =>
          have hlist : (Json.array ((x :: rest).map Json.float)).list? Json.float? =
              some (x :: rest) ↔ ∀ y ∈ x :: rest, Json.Exact y := by
            simp only [Json.list?_array, Json.float?_float]
          rw [OpKind.params, ← hlist]
          simp [Json.required, Json.defaulted, Json.text?, Json.text, Option.bind_eq_some_iff]
  | measure register =>
      have hregister : Json.optional? Json.text? (Json.optional Json.text register) =
          some register := by
        cases register <;> rfl
      rw [tag, carried, members, ofTag?, List.tail_cons, Json.fields_record (by simp) (by simp)]
      simp [OpKind.params, Json.defaulted, hregister]
  | unknown name =>
      rw [tag, carried, members, ofTag?, List.tail_cons, Json.fields_record (by simp) (by simp)]
      simp [OpKind.params, Json.required, Json.text?, Json.text]
  | alloc => simp [tag, carried, members, ofTag?, bare, Json.record, OpKind.params]
  | reset => simp [tag, carried, members, ofTag?, bare, Json.record, OpKind.params]
  | swap => simp [tag, carried, members, ofTag?, bare, Json.record, OpKind.params]
  | sink => simp [tag, carried, members, ofTag?, bare, Json.record, OpKind.params]

/-- What can stand beside the tag. -/
theorem mem_carried {kind : OpKind} {m : String × Json} (hm : m ∈ kind.carried) :
    (∃ name, m = ("name", .text name)) ∨
      m = ("params", .array (kind.params.map Json.float)) ∨
        ∃ register, m = ("register", .optional .text register) := by
  cases kind with
  | gate name params =>
      simp only [carried, members, List.cons_append, List.nil_append, List.tail_cons,
        List.mem_cons] at hm
      rcases hm with rfl | hm
      · exact .inl ⟨name, rfl⟩
      · split at hm
        · cases hm
        · exact .inr (.inl (List.mem_singleton.mp hm))
  | measure register => exact .inr (.inr ⟨register, List.mem_singleton.mp hm⟩)
  | unknown name => exact .inl ⟨name, List.mem_singleton.mp hm⟩
  | alloc => cases hm
  | reset => cases hm
  | swap => cases hm
  | sink => cases hm

theorem carried_ne {kind : OpKind} {m : String × Json} (hm : m ∈ kind.carried) :
    m.1 ≠ "kind" ∧ m.1 ≠ "qubits" := by
  rcases mem_carried hm with ⟨_, rfl⟩ | rfl | ⟨_, rfl⟩
  · exact ⟨by simp, by simp⟩
  · exact ⟨by simp, by simp⟩
  · exact ⟨by simp, by simp⟩

/-- What stands beside the tag can be held back. -/
theorem carried_sound {kind : OpKind} {room : Nat} (hroom : 0 < room)
    (hparams : ∀ x ∈ kind.params, Json.Exact x) {m : String × Json} (hm : m ∈ kind.carried) :
    m.2.isSound room = true := by
  rcases mem_carried hm with ⟨_, rfl⟩ | rfl | ⟨register, rfl⟩
  · rfl
  · simp only [Json.isSound, hroom, decide_true, Bool.true_and, Json.areSound_iff]
    intro j hj
    obtain ⟨x, hx, rfl⟩ := List.mem_map.mp hj
    obtain ⟨hfinite, hscaled⟩ := hparams x hx
    rw [Json.float, if_pos hfinite, Json.isSound, hscaled]
    rfl
  · cases register <;> rfl

theorem takeMember?_kind (kind : OpKind) : takeMember? "kind" (Json.keyed kind.members) =
    some (.text kind.tag, Json.keyed kind.carried) := by
  rw [members_eq]
  exact Json.takeMember?_keyed (List.forall_mem_nil _) fun m hm => (carried_ne hm).1

/-- A kind is read back exactly if its parameters are exact. -/
theorem ofJson?_toJson {kind : OpKind} {depth : Nat} (hdepth : depth + 1 < Json.maxDepth) :
    ofJson? depth kind.toJson = some kind ↔ ∀ x ∈ kind.params, Json.Exact x := by
  have hread : ofJson? depth kind.toJson =
      if Json.membersSound (Json.maxDepth - (depth + 1)) (Json.keyed kind.carried) then
        ofTag? kind.tag (.record kind.carried)
      else none := by
    show ofJson? depth (.object (Json.keyed kind.members)) = _
    rw [ofJson?, takeMember?_kind]
    rfl
  rw [hread, ← ofTag?_carried]
  constructor
  · intro h
    split at h
    · exact h
    · cases h
  · intro h
    rw [if_pos, h]
    rw [Json.membersSound_keyed]
    exact fun m hm => carried_sound (by omega) (ofTag?_carried.mp h) hm

theorem written_members (kind : OpKind) : ∀ m ∈ kind.members, m.2.Written := by
  rw [members_eq, List.forall_mem_cons]
  refine ⟨.string _, fun m hm => ?_⟩
  rcases mem_carried hm with ⟨_, rfl⟩ | rfl | ⟨register, rfl⟩
  · exact .string _
  · exact Json.written_array fun x _ => Json.written_float x
  · exact Json.written_optional (fun _ => .string _) register

end OpKind

namespace Instruction

/-- An instruction is read back exactly if its parameters are exact and its qubits are of 32
bits. -/
theorem ofJson?_toJson {i : Instruction} {depth : Nat} (hdepth : depth + 1 < Json.maxDepth) :
    ofJson? depth i.toJson = some i ↔
      (∀ x ∈ i.kind.params, Json.Exact x) ∧ ∀ q ∈ i.qubits, q < Text.limit32 := by
  have htake : OpKind.takeMember? "qubits"
      (Json.keyed (i.kind.members ++ [("qubits", .nats i.qubits)])) =
        some (.nats i.qubits, Json.keyed i.kind.members) := by
    have hkeys : ∀ m ∈ i.kind.members, m.1 ≠ "qubits" := by
      rw [OpKind.members_eq, List.forall_mem_cons]
      exact ⟨by simp, fun m hm => (OpKind.carried_ne hm).2⟩
    rw [Json.takeMember?_keyed hkeys (by simp), List.append_nil]
  have hread : ofJson? depth i.toJson = ((Json.nats i.qubits).list? Json.nat32?).bind fun qubits =>
      if Json.membersSound (Json.maxDepth - (depth + 1)) (Json.keyed i.kind.members) then
        (OpKind.ofTag? i.kind.tag (.record i.kind.carried)).bind fun kind => some { kind, qubits }
      else none := by
    show ofJson? depth (.object (Json.keyed (i.kind.members ++ [("qubits", .nats i.qubits)]))) = _
    rw [ofJson?, htake]
    simp only [bind, Option.bind_some, OpKind.takeMember?_kind]
    rfl
  rw [hread, ← OpKind.ofTag?_carried, ← Json.list?_nats]
  simp only [Option.bind_eq_some_iff]
  constructor
  · rintro ⟨qubits, hqubits, h⟩
    split at h
    · obtain ⟨kind, hkind, heq⟩ := Option.bind_eq_some_iff.mp h
      cases i
      cases heq
      exact ⟨hkind, hqubits⟩
    · cases h
  · rintro ⟨hkind, hqubits⟩
    refine ⟨i.qubits, hqubits, ?_⟩
    rw [if_pos, hkind, Option.bind_some]
    -- What was held back is the tag and what stands beside it.
    rw [Json.membersSound_keyed, OpKind.members_eq, List.forall_mem_cons]
    exact ⟨rfl, fun m hm => OpKind.carried_sound (by omega) (OpKind.ofTag?_carried.mp hkind) hm⟩

end Instruction

namespace Operation

/-- The numbers that an operation holds. -/
def numbers (o : Operation) : List Nat := o.operands ++ (o.results ++ o.physical)

/-- An operation is read back exactly if its parameters are exact and its numbers are of 32 bits. -/
theorem ofJson?_toJson {o : Operation} {depth : Nat} (hdepth : depth + 2 < Json.maxDepth) :
    ofJson? depth o.toJson = some o ↔
      (∀ x ∈ o.kind.params, Json.Exact x) ∧ ∀ n ∈ o.numbers, n < Text.limit32 := by
  obtain ⟨kind, operands, results, physical⟩ := o
  rw [← OpKind.ofJson?_toJson (show depth + 1 + 1 < Json.maxDepth from hdepth)]
  simp only [numbers, List.forall_mem_append, ← Json.list?_nats]
  rw [toJson, ofJson?, Json.fields_record (by split <;> simp) (by split <;> simp)]
  cases physical with
  | nil =>
      have hempty : (Json.nats []).list? Json.nat32? = some [] := rfl
      simp [Json.required, Json.defaulted, Option.bind_eq_some_iff, hempty]
  | cons p rest => simp [Json.required, Json.defaulted, Option.bind_eq_some_iff]

theorem toJson_ne_null (o : Operation) : o.toJson ≠ .null := by
  intro h
  cases h

theorem written_toJson (o : Operation) : o.toJson.Written := by
  refine Json.written_record ?_
  simp only [List.cons_append, List.nil_append, List.forall_mem_cons]
  refine ⟨Json.written_record o.kind.written_members, Json.written_nats _, Json.written_nats _,
    fun m hm => ?_⟩
  split at hm
  · cases hm
  · rw [List.mem_singleton.mp hm]
    exact Json.written_nats _

end Operation

namespace Wire

/-- The numbers that a wire holds. -/
def numbers (wire : Wire) : List Nat := wire.producer :: wire.index :: wire.users

/-- A wire is read back exactly if its numbers are of 32 bits. -/
theorem ofJson?_toJson {wire : Wire} :
    ofJson? wire.toJson = some wire ↔ ∀ n ∈ wire.numbers, n < Text.limit32 := by
  obtain ⟨producer, index, users⟩ := wire
  rw [numbers, List.forall_mem_cons, List.forall_mem_cons, ← Json.list?_nats, ← Json.nat32?_nat,
    ← Json.nat32?_nat, toJson, ofJson?, Json.fields_record (by simp) (by simp)]
  simp [Json.required, Option.bind_eq_some_iff]

theorem written_toJson (wire : Wire) : wire.toJson.Written := by
  refine Json.written_record ?_
  simp only [List.forall_mem_cons]
  exact ⟨Json.written_nat _, Json.written_nat _, Json.written_nats _, List.forall_mem_nil _⟩

end Wire

theorem Level.ofJson?_name (level : Level) : Level.ofJson? (.text level.name) = some level := by
  cases level <;> rfl

/-! ## Programs -/

namespace Program

/-- The parameters of the gates of a program. -/
def params (p : Program) : List Float := p.instructions.flatMap (·.kind.params)

/-- The numbers of a program are of 32 bits. -/
structure Sized (p : Program) : Prop where
  numQubits : p.numQubits < Text.limit32
  qubits : ∀ i ∈ p.instructions, ∀ q ∈ i.qubits, q < Text.limit32

/-- A program is read back exactly if its parameters are exact and its numbers are of 32 bits. -/
theorem ofJson?_toJson {p : Program} :
    ofJson? p.toJson = some p ↔ p.Sized ∧ ∀ x ∈ p.params, Json.Exact x := by
  have hread : ofJson? p.toJson = some p ↔ (Json.nat p.numQubits).nat32? = some p.numQubits ∧
      (Json.array (p.instructions.map Instruction.toJson)).list? (Instruction.ofJson? 2) =
        some p.instructions := by
    obtain ⟨name, numQubits, instructions⟩ := p
    rw [toJson, ofJson?, Json.fields_record (by simp) (by simp)]
    simp [Json.required, Json.defaulted, Option.bind_eq_some_iff, Json.text?, Json.text]
  rw [hread, Json.nat32?_nat, Json.list?_array]
  simp only [Instruction.ofJson?_toJson (show 2 + 1 < Json.maxDepth by decide)]
  constructor
  · rintro ⟨hnum, hall⟩
    refine ⟨⟨hnum, fun i hi => (hall i hi).2⟩, fun x hx => ?_⟩
    obtain ⟨i, hi, hx⟩ := List.mem_flatMap.mp hx
    exact (hall i hi).1 x hx
  · rintro ⟨hsized, hexact⟩
    exact ⟨hsized.numQubits, fun i hi =>
      ⟨fun x hx => hexact x (List.mem_flatMap.mpr ⟨i, hi, hx⟩), hsized.qubits i hi⟩⟩

theorem written_toJson (p : Program) : p.toJson.Written := by
  refine Json.written_record ?_
  simp only [List.forall_mem_cons]
  refine ⟨.string _, Json.written_nat _, Json.written_array fun i _ => ?_, List.forall_mem_nil _⟩
  refine Json.written_record ?_
  rw [List.forall_mem_append, List.forall_mem_singleton]
  exact ⟨i.kind.written_members, Json.written_nats _⟩

end Program

/-! ## Kernels -/

namespace Kernel

variable {k : Kernel}

/-- The parameters of the gates of a kernel. -/
def params (k : Kernel) : List Float := k.liveOps.flatMap (·.2.kind.params)

/-- The numbers of a kernel are of 32 bits. -/
structure Sized (k : Kernel) : Prop where
  ops : ∀ x o, k.op? x = some o → ∀ n ∈ o.numbers, n < Text.limit32
  wires : ∀ w wire, k.wire? w = some wire → ∀ n ∈ wire.numbers, n < Text.limit32
  blocks : ∀ block ∈ k.blocks, ∀ x ∈ block, x < Text.limit32
  mapping : ∀ map ∈ k.mapping, ∀ q ∈ map, q < Text.limit32

theorem forall_mem_ops {P : Operation → Prop} :
    (∀ slot ∈ k.ops.toList, ∀ o ∈ slot, P o) ↔ ∀ x o, k.op? x = some o → P o := by
  constructor
  · intro h x o hx
    obtain ⟨hlt, hslot⟩ := Array.getElem?_eq_some_iff.mp (op?_eq_some.mp hx)
    refine h (some o) ?_ o rfl
    rw [← hslot]
    exact Array.getElem_mem_toList hlt
  · intro h slot hslot o ho
    obtain ⟨x, hlt, hx⟩ := Array.mem_iff_getElem.mp (Array.mem_toList_iff.mp hslot)
    refine h x o (op?_eq_some.mpr ?_)
    rw [Array.getElem?_eq_getElem hlt, hx, ho]

theorem forall_mem_wires {P : Wire → Prop} :
    (∀ wire ∈ k.wires.toList, P wire) ↔ ∀ w wire, k.wire? w = some wire → P wire := by
  simp only [Array.mem_toList_iff, Array.mem_iff_getElem?]
  exact ⟨fun h w wire hw => h wire ⟨w, hw⟩, fun h wire ⟨w, hw⟩ => h w wire hw⟩

/-- The fields of the document of a kernel. -/
theorem fields_toJson (k : Kernel) :
    k.toJson.fields ["name", "ops", "wires", "blocks", "level", "mapping_v2p"] =
      some [some (.text k.name),
        some (.array (k.ops.toList.map (Json.optional Operation.toJson))),
        some (.array (k.wires.toList.map Wire.toJson)), some (.array (k.blocks.map Json.nats)),
        some (.text k.level.name), k.mapping.map Json.nats] := by
  rw [toJson, Json.fields_record (by split <;> simp) (by split <;> simp)]
  cases k.mapping <;> rfl

/-- A kernel is read back exactly if each of its parts is. -/
theorem ofJson?_toJson_iff_parts : ofJson? k.toJson = some k ↔
    (Json.array (k.ops.toList.map (Json.optional Operation.toJson))).list?
        (Json.optional? (Operation.ofJson? 2)) = some k.ops.toList ∧
      (Json.array (k.wires.toList.map Wire.toJson)).list? Wire.ofJson? = some k.wires.toList ∧
      (Json.array (k.blocks.map Json.nats)).list? (Json.list? Json.nat32?) = some k.blocks ∧
      Json.defaulted none (Json.optional? (Json.list? Json.nat32?)) (k.mapping.map Json.nats) =
        some k.mapping := by
  rw [ofJson?, fields_toJson]
  obtain ⟨name, ⟨ops⟩, ⟨wires⟩, blocks, level, mapping⟩ := k
  simp only [Json.required, bind, Option.bind_some, Option.bind_eq_some_iff, Json.text?,
    Json.text, Option.some.injEq, mk.injEq]
  constructor
  · rintro ⟨_, hops, _, hwires, _, hblocks, _, -, _, hmapping, -, ⟨⟩, ⟨⟩, rfl, rfl, rfl⟩
    exact ⟨hops, hwires, hblocks, hmapping⟩
  · rintro ⟨hops, hwires, hblocks, hmapping⟩
    exact ⟨ops, hops, wires, hwires, blocks, hblocks, level, level.ofJson?_name, mapping, hmapping,
      trivial, rfl, rfl, rfl, rfl, rfl⟩

/-- A kernel is read back exactly if its parameters are exact and its numbers are of 32 bits. -/
theorem ofJson?_toJson :
    ofJson? k.toJson = some k ↔ k.Sized ∧ ∀ x ∈ k.params, Json.Exact x := by
  have hmapping : Json.defaulted none (Json.optional? (Json.list? Json.nat32?))
      (k.mapping.map Json.nats) = some k.mapping ↔
        ∀ map ∈ k.mapping, ∀ q ∈ map, q < Text.limit32 := by
    cases k.mapping with
    | none => simp [Json.defaulted]
    | some map =>
        have hmap : Json.optional? (Json.list? Json.nat32?) (Json.nats map) =
            ((Json.nats map).list? Json.nat32?).map some := rfl
        simp [Json.defaulted, hmap, Json.list?_nats]
  rw [ofJson?_toJson_iff_parts, hmapping]
  simp only [Json.list?_array, Json.optional?_optional Operation.toJson_ne_null,
    Operation.ofJson?_toJson (show 2 + 2 < Json.maxDepth by decide), forall_mem_ops,
    Wire.ofJson?_toJson, forall_mem_wires, Json.list?_nats]
  constructor
  · rintro ⟨hall, hwires, hblocks, hmapping⟩
    refine ⟨⟨fun x o hx => (hall x o hx).2, hwires, hblocks, hmapping⟩, fun y hy => ?_⟩
    obtain ⟨⟨x, o⟩, hx, hy⟩ := List.mem_flatMap.mp hy
    exact (hall x o (mem_liveOps.mp hx)).1 y hy
  · rintro ⟨hsized, hexact⟩
    exact ⟨fun x o hx => ⟨fun y hy => hexact y
      (List.mem_flatMap.mpr ⟨(x, o), mem_liveOps.mpr hx, hy⟩), hsized.ops x o hx⟩, hsized.wires,
      hsized.blocks, hsized.mapping⟩

theorem written_toJson (k : Kernel) : k.toJson.Written := by
  refine Json.written_record ?_
  simp only [List.cons_append, List.nil_append, List.forall_mem_cons]
  refine ⟨.string _, Json.written_array fun slot _ =>
    Json.written_optional Operation.written_toJson slot, Json.written_array fun wire _ =>
    wire.written_toJson, Json.written_array fun block _ => Json.written_nats block, .string _,
    fun m hm => ?_⟩
  cases hmapping : k.mapping with
  | none =>
      rw [hmapping] at hm
      cases hm
  | some map =>
      rw [hmapping] at hm
      rw [List.mem_singleton.mp hm]
      exact Json.written_nats map

end Kernel

/-! ## Texts -/

namespace Json

/-- A program is read back from its text exactly if its numbers are of 32 bits and its parameters
are finite and given back by their numerals; names, registers and kinds do not matter. The same
holds of kernels, in both layouts. -/
theorem documents_read_back :
    (∀ p : Program, (parse p.toJson.pretty).bind Program.ofJson? = some p ↔
      p.Sized ∧ ∀ x ∈ p.params, Exact x) ∧
    ∀ k : Kernel, ((parse k.toJson.pretty).bind Kernel.ofJson? = some k ↔
        k.Sized ∧ ∀ x ∈ k.params, Exact x) ∧
      ((parse k.toJson.compact).bind Kernel.ofJson? = some k ↔
        k.Sized ∧ ∀ x ∈ k.params, Exact x) := by
  refine ⟨fun p => ?_, fun k => ⟨?_, ?_⟩⟩
  · rw [pretty, p.written_toJson.parse Spacing.blank_pretty]
    exact Program.ofJson?_toJson
  · rw [pretty, k.written_toJson.parse Spacing.blank_pretty]
    exact Kernel.ofJson?_toJson
  · rw [compact, k.written_toJson.parse Spacing.blank_compact]
    exact Kernel.ofJson?_toJson

/-- A program of all kinds, with empty lists and with texts that have to be escaped. -/
def assorted : Program where
  name := "\"a\\b\"\n\x01é"
  numQubits := 3
  instructions := [⟨.alloc, []⟩, ⟨.gate "rz" [0.5, -0.0, 1e-7], [2]⟩, ⟨.gate "" [], [0, 1]⟩,
    ⟨.measure none, [0]⟩, ⟨.measure (some "\t"), [1]⟩, ⟨.reset, [1]⟩, ⟨.swap, [0, 2]⟩, ⟨.sink, [0]⟩,
    ⟨.unknown "gate", []⟩]

/-- A kernel with an erased operation, with and without physical qubits. -/
def perforated : Kernel where
  name := "perforated"
  ops := #[some ⟨.alloc, [], [0], [4]⟩, none, some ⟨.gate "rx" [0.1], [0], [2], []⟩]
  wires := #[⟨0, 0, [2]⟩, ⟨1, 0, []⟩, ⟨2, 0, []⟩]
  blocks := [[0, 2], []]
  level := .physical
  mapping := none

/-- Both are read back. -/
theorem documents_read_back_assorted :
    (parse assorted.toJson.pretty).bind Program.ofJson? = some assorted ∧
      (parse perforated.toJson.compact).bind Kernel.ofJson? = some perforated := by
  obtain ⟨hprogram, hkernel⟩ := documents_read_back
  refine ⟨(hprogram assorted).mpr ⟨⟨by decide, by decide⟩, by decide +kernel⟩,
    (hkernel perforated).2.mpr ⟨⟨?_, ?_, by decide, by decide⟩, by decide +kernel⟩⟩
  · rw [← Kernel.forall_mem_ops]
    decide
  · rw [← Kernel.forall_mem_wires]
    decide

end Json

end QubitMapper
