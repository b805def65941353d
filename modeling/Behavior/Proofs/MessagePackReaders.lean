import Behavior.Model.Stored
import Behavior.Proofs.ByteReaders

/-!
Reading MessagePack undoes writing it, for numbers, texts and lists, and so for debug maps.
-/

namespace Behavior

variable {α : Type} {depth count : Nat}

namespace MessagePack

variable {n : Nat}
variable {text : String} {b : UInt8}

/-! ## Numbers -/

theorem length_bigEndian (count n : Nat) : (bigEndian count n).length = count := by
  induction count with
  | zero => rfl
  | succ count ih => rw [bigEndian, List.length_cons, ih]

theorem foldl_eq_numberOf (bytes : List UInt8) (n : Nat) :
    bytes.foldl (fun n b => n * 256 + b.toNat) n = n * 256 ^ bytes.length + numberOf bytes := by
  induction bytes generalizing n with
  | nil => simp [numberOf]
  | cons b bytes ih =>
    rw [numberOf, List.foldl_cons, List.foldl_cons, ih, ih (0 * 256 + b.toNat), List.length_cons]
    ring

/-- The bytes of a number tell its remainder. -/
theorem numberOf_bigEndian (count n : Nat) : numberOf (bigEndian count n) = n % 256 ^ count := by
  induction count with
  | zero => simp [bigEndian, numberOf, Nat.mod_one]
  | succ count ih =>
    rw [bigEndian, numberOf, List.foldl_cons, foldl_eq_numberOf, ih, length_bigEndian, Nat.pow_succ,
      Nat.mod_mul]
    show (0 * 256 + (n / 256 ^ count).toUInt8.toNat) * 256 ^ count + n % 256 ^ count = _
    rw [Nat.toUInt8, UInt8.toNat_ofNat']
    ring

theorem numberOf_bigEndian_of_lt (h : n < 256 ^ count) : numberOf (bigEndian count n) = n := by
  rw [numberOf_bigEndian, Nat.mod_eq_of_lt h]

theorem split?_append {front : List UInt8} (h : front.length = count) (rest : List UInt8) :
    split? count (front ++ rest) = some (front, rest) := by
  subst h
  simp [split?]

theorem toNat_toUInt8 (h : n < 256) : n.toUInt8.toNat = n := by
  rw [Nat.toUInt8, UInt8.toNat_ofNat', Nat.mod_eq_of_lt h]

/-! ## Values -/

/-- The bytes stand for a value, whatever follows them. -/
def Reads (depth : Nat) (bytes : List UInt8) (v : MessagePack) : Prop :=
  ∀ rest, value? depth (bytes ++ rest) = some (v, rest)

theorem form?_cons {form : Form} (h : Form.ofByte? b = some form)
    (hsized : ∀ width f, form ≠ .sized width f) (rest : List UInt8) :
    form? (b :: rest) = some (form, rest) := by
  simp only [form?, h]

theorem form?_sized {width : Nat} {f : Nat → Form} (h : Form.ofByte? b = some (.sized width f))
    (hn : n < 256 ^ width) (rest : List UInt8) :
    form? (b :: bigEndian width n ++ rest) = some (f n, rest) := by
  simp only [form?, List.cons_append, h, split?_append (length_bigEndian width n), Option.map_some,
    numberOf_bigEndian_of_lt hn]

theorem reads_uint (h : n < 256 ^ 8) (depth : Nat) :
    Reads depth (encodeUint n) (.uint n) := by
  intro rest
  have hwide : ∀ (b : UInt8) (width : Nat), Form.ofByte? b = some (.uint width) →
      n < 256 ^ width → value? depth (b :: bigEndian width n ++ rest) = some (.uint n, rest) := by
    intro b width hb hn
    rw [value?, List.cons_append, form?_cons hb nofun]
    simp only [split?_append (length_bigEndian width n), Option.map_some,
      numberOf_bigEndian_of_lt hn]
  unfold encodeUint
  split
  · next hn =>
    have hb : Form.ofByte? n.toUInt8 = some (.value (.uint n)) := by
      rw [Form.ofByte?, toNat_toUInt8 (by omega), if_pos hn]
    rw [value?, List.cons_append, form?_cons hb nofun]
    rfl
  · split
    · next hn => exact hwide 0xcc 1 rfl hn
    · split
      · next hn => exact hwide 0xcd 2 rfl hn
      · split
        · next hn => exact hwide 0xce 4 rfl hn
        · exact hwide 0xcf 8 rfl h

theorem toNat_add_toUInt8 (base n : Nat) (h : base + n < 256) :
    (base.toUInt8 + n.toUInt8).toNat = base + n := by
  rw [UInt8.toNat_add, toNat_toUInt8 (by omega), toNat_toUInt8 (by omega), Nat.mod_eq_of_lt h]

theorem form?_encodeStr (h : text.toUTF8.data.toList.length < 256 ^ 4) (rest : List UInt8) :
    form? (encodeStr text ++ rest) =
      some (.str text.toUTF8.data.toList.length, text.toUTF8.data.toList ++ rest) := by
  unfold encodeStr
  dsimp only
  generalize text.toUTF8.data.toList = bytes at h ⊢
  rw [List.append_assoc]
  split
  · next hn =>
    have hb : Form.ofByte? (0xa0 + bytes.length.toUInt8) = some (.str bytes.length) := by
      have hnat : (0xa0 + bytes.length.toUInt8).toNat = 0xa0 + bytes.length :=
        toNat_add_toUInt8 0xa0 _ (by omega)
      rw [Form.ofByte?, hnat, if_neg (by omega), if_neg (by omega), if_neg (by omega),
        if_pos (by omega), Nat.add_sub_cancel_left]
    exact form?_cons hb nofun _
  · split
    · next hn => exact form?_sized (b := 0xd9) (f := .str) rfl hn _
    · split
      · next hn => exact form?_sized (b := 0xda) (f := .str) rfl hn _
      · exact form?_sized (b := 0xdb) (f := .str) rfl h _

theorem reads_str (h : text.toUTF8.data.toList.length < 256 ^ 4) (depth : Nat) :
    Reads depth (encodeStr text) (.str text.toUTF8.data.toList) := by
  intro rest
  rw [value?, form?_encodeStr h]
  simp only [split?_append rfl, Option.map_some]

theorem form?_encodeArrHeader (h : n < 256 ^ 4) (rest : List UInt8) :
    form? (encodeArrHeader n ++ rest) = some (.arr n, rest) := by
  unfold encodeArrHeader
  split
  · next hn =>
    have hb : Form.ofByte? (0x90 + n.toUInt8) = some (.arr n) := by
      have hnat : (0x90 + n.toUInt8).toNat = 0x90 + n := toNat_add_toUInt8 0x90 n (by omega)
      rw [Form.ofByte?, hnat, if_neg (by omega), if_neg (by omega), if_pos (by omega),
        Nat.add_sub_cancel_left]
    exact form?_cons hb nofun _
  · split
    · next hn => exact form?_sized (b := 0xdc) (f := .arr) rfl hn _
    · exact form?_sized (b := 0xdd) (f := .arr) rfl h _

theorem items?_flatMap {read : List UInt8 → Option (MessagePack × List UInt8)}
    {write : α → List UInt8} {value : α → MessagePack} {items : List α}
    (h : ∀ a ∈ items, ∀ rest, read (write a ++ rest) = some (value a, rest))
    (done : List MessagePack) (rest : List UInt8) :
    items? read items.length done (items.flatMap write ++ rest) =
      some (done.reverse ++ items.map value, rest) := by
  induction items generalizing done with
  | nil => simp [items?]
  | cons a items ih =>
    rw [List.length_cons, items?, List.flatMap_cons, List.append_assoc, h a List.mem_cons_self]
    dsimp only
    rw [ih fun b hb => h b (List.mem_cons_of_mem _ hb)]
    simp

theorem reads_arr {write : α → List UInt8} {value : α → MessagePack} {items : List α}
    (hlength : items.length < 256 ^ 4) (h : ∀ a ∈ items, Reads depth (write a) (value a)) :
    Reads (depth + 1) (encodeArrHeader items.length ++ items.flatMap write)
      (.arr (items.map value)) := by
  intro rest
  rw [value?, List.append_assoc, form?_encodeArrHeader hlength]
  simp only [items?_flatMap h, Option.map_some]
  rfl

theorem reads_pair {first second : List UInt8} {v w : MessagePack} (hv : Reads depth first v)
    (hw : Reads depth second w) :
    Reads (depth + 1) (encodeArrHeader 2 ++ (first ++ second)) (.arr [v, w]) := by
  let items := [(first, v), (second, w)]
  have hitems : ∀ p ∈ items, Reads depth p.1 p.2 := by
    intro p hp
    rcases List.mem_cons.1 hp with rfl | hp
    · exact hv
    · cases List.mem_singleton.1 hp
      exact hw
  have h : Reads (depth + 1) (encodeArrHeader items.length ++ items.flatMap Prod.fst)
      (.arr (items.map Prod.snd)) := reads_arr (by simp [items]) hitems
  simpa [items] using h

end MessagePack

/-! ## Debug maps -/

namespace DebugMap

open MessagePack

variable {flows : List (UInt32 × String)}

/-- The value that stands for a span. -/
def spanValue (span : Span) : MessagePack :=
  .arr [.uint span.line.toNat, .uint span.column.toNat]

/-- The value that stands for the name of a flow. -/
def nameValue (name : String) : MessagePack :=
  .str name.toUTF8.data.toList

/-- The value that stands for something at a code offset. -/
def pairValue {α : Type} (value : α → MessagePack) (p : UInt32 × α) : MessagePack :=
  .arr [.uint p.1.toNat, value p.2]

theorem uint32?_uint (n : UInt32) : uint32? (.uint n.toNat) = some n := by
  have : n.toNat ≤ 0xffffffff := by have := n.toNat_lt; omega
  simp [uint32?, nat?, this]

theorem span?_spanValue (span : Span) : span? (spanValue span) = some span := by
  simp [span?, spanValue, record?, tuple?, uint32?_uint]

theorem string?_nameValue (name : String) : string? (nameValue name) = some name :=
  fromUTF8?_toUTF8 name

theorem pairs?_pairValue {read : MessagePack → Option α} {value : α → MessagePack}
    (h : ∀ a, read (value a) = some a) (items : List (UInt32 × α)) :
    pairs? read (.arr (items.map (pairValue value))) = some items := by
  rw [pairs?, list?, Option.bind_some, List.mapM_map]
  induction items with
  | nil => rfl
  | cons p items ih =>
    rw [List.mapM_cons, ih]
    simp [pairValue, tuple?, uint32?_uint, h]

theorem reads_span (span : Span) :
    Reads (depth + 1) (encodeArrHeader 2 ++ (encodeUint span.line.toNat ++
      encodeUint span.column.toNat)) (spanValue span) := by
  refine reads_pair (reads_uint ?_ depth) (reads_uint ?_ depth)
  · have := span.line.toNat_lt
    omega
  · have := span.column.toNat_lt
    omega

/-- The bytes of a span with its offset. -/
def encodeSpan (p : UInt32 × Span) : List UInt8 :=
  encodeArrHeader 2 ++ (encodeUint p.1.toNat ++ (encodeArrHeader 2 ++
    (encodeUint p.2.line.toNat ++ encodeUint p.2.column.toNat)))

/-- The bytes of a flow's name with its offset. -/
def encodeFlow (p : UInt32 × String) : List UInt8 :=
  encodeArrHeader 2 ++ (encodeUint p.1.toNat ++ encodeStr p.2)

theorem encode_eq (d : DebugMap) :
    d.encode = encodeArrHeader 2 ++
      ((encodeArrHeader d.spans.toList.length ++ d.spans.toList.flatMap encodeSpan) ++
        (encodeArrHeader d.flows.length ++ d.flows.flatMap encodeFlow)) := by
  rw [List.append_assoc, Array.length_toList]
  rfl

theorem length_le_flatMap {β : Type} {f : α → List β} (h : ∀ a, f a ≠ []) (l : List α) :
    l.length ≤ (l.flatMap f).length := by
  induction l with
  | nil => exact Nat.le_refl _
  | cons a l ih =>
    rw [List.length_cons, List.flatMap_cons, List.length_append]
    have := List.length_pos_iff.2 (h a)
    omega

theorem length_name_le {p : UInt32 × String} (h : p ∈ flows) :
    p.2.toUTF8.data.toList.length ≤ (flows.flatMap encodeFlow).length := by
  have hsub : (encodeFlow p).Sublist (flows.flatMap encodeFlow) := by
    rw [List.flatMap_def]
    exact List.sublist_flatten_of_mem (List.mem_map_of_mem h)
  refine Nat.le_trans ?_ hsub.length_le
  rw [encodeFlow, List.length_append, List.length_append, encodeStr, List.length_append]
  omega

theorem reads_spans {spans : List (UInt32 × Span)} (h : spans.length < 256 ^ 4) (depth : Nat) :
    Reads (depth + 3) (encodeArrHeader spans.length ++ spans.flatMap encodeSpan)
      (.arr (spans.map (pairValue spanValue))) := by
  refine reads_arr h fun p _ => reads_pair (reads_uint ?_ _) (reads_span p.2)
  have := p.1.toNat_lt
  omega

theorem reads_flows (h : (flows.flatMap encodeFlow).length < 256 ^ 4) (depth : Nat) :
    Reads (depth + 2) (encodeArrHeader flows.length ++ flows.flatMap encodeFlow)
      (.arr (flows.map (pairValue nameValue))) := by
  have hlength : flows.length ≤ (flows.flatMap encodeFlow).length :=
    length_le_flatMap (fun _ => by simp [encodeFlow, encodeArrHeader]) flows
  refine reads_arr (by omega) fun p hp => reads_pair (reads_uint ?_ _) (reads_str ?_ _)
  · have := p.1.toNat_lt
    omega
  · exact Nat.lt_of_le_of_lt (length_name_le hp) h

/-- A debug map that is not too long is read back. -/
theorem decode?_encode {d : DebugMap} (h : d.encode.length < 256 ^ 4) :
    decode? d.encode = some d := by
  rw [encode_eq] at h ⊢
  have hspans : d.spans.toList.length ≤ (d.spans.toList.flatMap encodeSpan).length :=
    length_le_flatMap (fun _ => by simp [encodeSpan, encodeArrHeader]) _
  simp only [List.length_append] at h
  have hs : d.spans.toList.length < 256 ^ 4 := by omega
  have hf : (d.flows.flatMap encodeFlow).length < 256 ^ 4 := by omega
  have hread : Reads maxDepth _ _ := reads_pair (reads_spans hs 1019) (reads_flows hf 1020)
  have hvalue := hread []
  rw [List.append_nil] at hvalue
  simp only [decode?, MessagePack.decode?, hvalue, Option.map_some]
  simp [record?, tuple?, pairs?_pairValue span?_spanValue, pairs?_pairValue string?_nameValue]

end DebugMap

end Behavior
