import DispCalc.Iqxmlrpc.Parser

/-!
# Values that are sent and received

A value is written, formatted and read again.
-/

open SortedMap

namespace DispCalc.Iqxmlrpc

variable {δ : Type} [StdText δ]

/-! ## What formatting does to the elements that are written -/

theorem not_formatted_text {l : Nat} {s : String} {n : Node} : ¬ Formatted (.text l s) n := by
  rintro ⟨⟩

theorem not_spaced_text {l : Nat} {s : String} {ns ns' : List Node} :
    ¬ Spaced Formatted (.text l s :: ns) ns' := by
  intro h
  generalize hns : Node.text l s :: ns = ms at h
  induction h with
  | nil => cases hns
  | child hn hs ih =>
    obtain ⟨rfl, -⟩ := List.cons.inj hns
    exact not_formatted_text hn
  | blank hb hs ih => exact ih hns
  | other hs ih => exact ih hns

theorem Formatted.of_leaf {name s : String} {n : Node} (h : Formatted (leaf name s) n) :
    ∃ line l, n = .element line name (if s = "" then [] else [.text l s]) := by
  cases h with
  | text hs => exact ⟨_, _, by rw [if_neg hs]⟩
  | empty => exact ⟨_, 0, rfl⟩
  | elements hs => exact absurd hs not_spaced_text

theorem Formatted.of_elements {name : String} {ns : List Node} {n : Node}
    (h : Formatted (element name ns) n) (hns : ∀ l s, ns ≠ [.text l s]) :
    ∃ line els, n.getName = name ∧ n.getLine = line ∧ elementsOnly n = .ok els ∧
      List.Forall₂ Formatted ns els := by
  cases h with
  | text hs => exact absurd rfl (hns _ _)
  | empty => exact absurd rfl (hns _ _)
  | elements hs =>
    obtain ⟨els, hels, hall⟩ := elementsOf_spaced hs
    exact ⟨_, els, rfl, rfl, hels, hall⟩

theorem childText_leaf {line l : Nat} {name s : String} :
    childText (.element line name (if s = "" then [] else [.text l s])) =
      .ok (if s = "" then none else some s) := by
  split <;> rfl

theorem childText_of_ne {line l : Nat} {name s : String} (hs : s ≠ "") :
    childText (.element line name (if s = "" then [] else [.text l s])) = .ok (some s) := by
  rw [childText_leaf, if_neg hs]

theorem getD_text (s : String) : (if s = "" then none else some s).getD "" = s := by
  split
  · rename_i hs
    exact hs.symm
  · rfl

theorem getMemberName_leaf {line l : Nat} {name s : String} (hs : isBlank s = false) :
    getMemberName (.element line name (if s = "" then [] else [.text l s])) = .ok s := by
  have hne : s ≠ "" := by
    rintro rfl
    revert hs
    decide
  rw [if_neg hne]
  have htext : childText (.element line name [.text l s]) = .ok (some s) := rfl
  simp only [getMemberName, Node.getChildren, List.length_singleton, ne_eq, not_true, if_false, htext,
    Except.ok_bind, hs, Bool.false_eq_true]
  rfl

theorem readInt_toString (i : IntValue) : readInt (toString i.1) = some i := by
  have hstart := startsNumeral_toString i.1
  have hdrop : (toString i.1).toList.dropWhile DispCalc.Parser.isSpace = (toString i.1).toList := by
    unfold startsNumeral firstChar at hstart
    cases hlist : (toString i.1).toList with
    | nil => rfl
    | cons c cs =>
      rw [hlist, List.headD_cons] at hstart
      refine List.dropWhile_cons_of_neg fun hspace => ?_
      simp only [DispCalc.Parser.isSpace, Bool.or_eq_true, decide_eq_true_eq] at hspace
      rcases hspace with ((((rfl | rfl) | rfl) | rfl) | rfl) | rfl <;> revert hstart <;> decide
  unfold readInt
  rw [hdrop, String.ofList_toList, numeral?_toString]
  exact dif_pos i.2

theorem singleElement_of {n el : Node} (h : elementsOnly n = .ok [el]) : singleElement n = .ok el := by
  unfold singleElement
  rw [h]
  rfl

/-! ## One element -/

theorem parseValue_value {v : Value δ}
    (hv : ∀ n, Formatted v.typeToXml n → typeParser n = .ok v) {n : Node} (h : Formatted v.toXml n) :
    parseValue n = .ok v := by
  have hne : ∀ l s, [v.typeToXml] ≠ [.text l s] := by
    intro l s heq
    cases v <;> cases heq
  obtain ⟨line, els, hname, -, hels, hall⟩ := Formatted.of_elements h hne
  obtain ⟨el, rfl, hel⟩ : ∃ el, els = [el] ∧ Formatted v.typeToXml el := by
    rcases hall with _ | ⟨hel, ⟨⟩⟩
    exact ⟨_, rfl, hel⟩
  have hmem := mem_of_elementsOf hels el List.mem_cons_self
  obtain ⟨line', children, rfl⟩ := hel.element_right
  have hsingle := hv _ hel
  rw [parseValue_eq, if_neg (by simp [hname])]
  split
  · rename_i hc
    simp [hc] at hmem
  · rename_i hc
    simp [hc] at hmem
  · rw [singleElement_of hels, Except.ok_bind, hsingle]

theorem memberParser_member {e : String × Value δ} (hname : isBlank e.1 = false)
    (hv : ∀ n, Formatted e.2.toXml n → parseValue n = .ok e.2) {n : Node} (h : Formatted (memberToXml e) n) :
    memberParser n = .ok e := by
  obtain ⟨line, els, hmember, -, hels, hall⟩ := Formatted.of_elements h (by simp)
  rcases hall with _ | ⟨hfront, _ | ⟨hback, ⟨⟩⟩⟩
  obtain ⟨line', l, rfl⟩ := hfront.of_leaf
  rw [memberParser_eq, if_neg (by simp [hmember]), hels, Except.ok_bind]
  simp only [Node.getName, ne_eq, not_true, if_false, getMemberName_leaf hname, Except.ok_bind,
    List.getLast_cons_cons, List.getLast_singleton, hv _ hback]
  rfl

theorem mapM_parseValue {values : List (Value δ)} {els : List Node}
    (hv : ∀ v ∈ values, ∀ n, Formatted v.toXml n → parseValue n = .ok v)
    (h : List.Forall₂ Formatted (values.map Value.toXml) els) : els.mapM parseValue = .ok values := by
  induction values generalizing els with
  | nil =>
    cases h
    rfl
  | cons v values ih =>
    rcases h with _ | ⟨hel, hrest⟩
    rw [List.mapM_cons, hv v List.mem_cons_self _ hel, Except.ok_bind,
      ih (fun u hu => hv u (List.mem_cons_of_mem _ hu)) hrest]
    rfl

theorem foldlM_members {values : List (String × Value δ)} {els : List Node} (s : List (String × Value δ))
    (hv : ∀ e ∈ values, ∀ n, Formatted (memberToXml e) n → memberParser n = .ok e)
    (h : List.Forall₂ Formatted (values.map memberToXml) els) :
    els.foldlM (fun s member => do
      let e ← memberParser member
      return upsert e.1 e.2 s) s = .ok (values.foldl (fun s e => upsert e.1 e.2 s) s) := by
  induction values generalizing els s with
  | nil =>
    cases h
    rfl
  | cons e values ih =>
    rcases h with _ | ⟨hel, hrest⟩
    rw [List.foldlM_cons, hv e List.mem_cons_self _ hel, Except.ok_bind]
    exact ih _ (fun u hu => hv u (List.mem_cons_of_mem _ hu)) hrest

theorem typeParser_typeToXml {v : Value δ} (h : v.Sendable) :
    ∀ n, Formatted v.typeToXml n → typeParser n = .ok v := by
  induction h with
  | nil =>
    intro n hn
    obtain ⟨line, children, rfl⟩ := hn.element_right
    rw [typeParser]
    rfl
  | int i =>
    intro n hn
    obtain ⟨line, l, rfl⟩ := Formatted.of_leaf hn
    rw [typeParser]
    simp only [Node.getName, intParser, childText_of_ne (toString_ne _), Except.ok_bind, readInt_toString]
    rfl
  | bool b =>
    intro n hn
    obtain ⟨line, l, rfl⟩ := Formatted.of_leaf hn
    have hne : (if b then "1" else "0") ≠ "" := by cases b <;> decide
    rw [typeParser]
    simp only [Node.getName, booleanParser, childText_of_ne hne, Except.ok_bind]
    cases b <;> rfl
  | double hd h =>
    intro n hn
    obtain ⟨line, l, rfl⟩ := Formatted.of_leaf hn
    rw [typeParser]
    simp only [Node.getName, doubleParser, childText_of_ne hd, Except.ok_bind, h]
    rfl
  | string s =>
    intro n hn
    obtain ⟨line, l, rfl⟩ := Formatted.of_leaf hn
    rw [typeParser]
    simp only [Node.getName, stringParser, childText_leaf, Except.ok_bind]
    split
    · rename_i hs
      rw [hs]
      rfl
    · rfl
  | @array values h ih =>
    intro n hn
    obtain ⟨line, els, hname, -, hels, hall⟩ := Formatted.of_elements hn (by simp [element])
    rcases hall with _ | ⟨hdata, ⟨⟩⟩
    have hne : ∀ l s, Value.arrayToXml values ≠ [.text l s] := by
      intro l s heq
      cases values <;> cases heq
    obtain ⟨line', els', hdname, -, hels', hall'⟩ := Formatted.of_elements hdata hne
    rw [arrayToXml_eq] at hall'
    have hparse := mapM_parseValue (fun v hv n hn => parseValue_value (ih v hv) hn) hall'
    rw [typeParser, hname, arrayParser_eq, singleElement_of hels, Except.ok_bind, if_neg (by simp [hdname]),
      hels', Except.ok_bind, hparse]
    rfl
  | @struct values hs hn h ih =>
    intro n hf
    have hne : ∀ l s, Value.structToXml values ≠ [.text l s] := by
      intro l s heq
      cases values <;> cases heq
    obtain ⟨line, els, hname, -, hels, hall⟩ := Formatted.of_elements hf hne
    rw [structToXml_eq] at hall
    have hmember : ∀ e ∈ values, ∀ n, Formatted (memberToXml e) n → memberParser n = .ok e := fun e he n =>
      memberParser_member (hn e he) fun n hn => parseValue_value (ih e he) hn
    rw [typeParser, hname, structParser_eq, hels, Except.ok_bind, foldlM_members [] hmember hall, Except.ok_bind,
      foldl_upsert (show Sorted ([] ++ values) from hs)]
    rfl
  | base64 b =>
    intro n hn
    obtain ⟨line, l, rfl⟩ := Formatted.of_leaf hn
    rw [typeParser]
    simp only [Node.getName, base64Parser, childText_leaf, Except.ok_bind, getD_text, String.toList_ofList,
      BinaryData.fromBase64_base64]
    rfl
  | datetime hd =>
    intro n hn
    obtain ⟨line, l, rfl⟩ := Formatted.of_leaf hn
    rw [typeParser]
    simp only [Node.getName, dateTimeParser, childText_leaf, Except.ok_bind, getD_text, String.toList_ofList,
      DateTime.toString, StdText.strftime_normal _ hd, DateTime.ofString_iso8601 hd]
    rfl

theorem parseValue_toXml {v : Value δ} (hv : v.Sendable) {n : Node} (h : Formatted v.toXml n) :
    parseValue n = .ok v :=
  parseValue_value (typeParser_typeToXml hv) h

/-! ## What is accepted -/

/-- `lexical_cast` writes enough digits: a `double` that was read is read again from its text. -/
class LawfulDoubleText (δ : Type) [StdText δ] : Prop where
  read_write : ∀ {s : String} {d : δ}, StdText.read s = some d →
    StdText.write d ≠ "" ∧ StdText.read (StdText.write d) = some d

theorem mapM_forall {α β : Type} {f : α → Except Failure β} {P : β → Prop} {as : List α} {bs : List β}
    (hf : ∀ a ∈ as, ∀ b, f a = .ok b → P b) (h : as.mapM f = .ok bs) : ∀ b ∈ bs, P b := by
  induction as generalizing bs with
  | nil =>
    obtain rfl := Except.ok.inj h
    simp
  | cons a as ih =>
    simp only [List.mapM_cons, Except.bind_eq_ok] at h
    obtain ⟨b, hb, bs', hbs, h⟩ := h
    obtain rfl := Except.ok.inj h
    intro c hc
    rcases List.mem_cons.mp hc with rfl | hc
    · exact hf a List.mem_cons_self _ hb
    · exact ih (fun a ha => hf a (List.mem_cons_of_mem _ ha)) hbs c hc

omit [StdText δ] in
theorem foldlM_upsert {α : Type} {f : α → Except Failure (String × Value δ)}
    {P : String × Value δ → Prop} {as : List α} {s t : List (String × Value δ)}
    (hf : ∀ a ∈ as, ∀ e, f a = .ok e → P e) (hs : Sorted s) (hP : ∀ e ∈ s, P e)
    (h : as.foldlM (fun s a => do
      let e ← f a
      return upsert e.1 e.2 s) s = .ok t) : Sorted t ∧ ∀ e ∈ t, P e := by
  induction as generalizing s with
  | nil =>
    obtain rfl := Except.ok.inj h
    exact ⟨hs, hP⟩
  | cons a as ih =>
    simp only [List.foldlM_cons, Except.bind_eq_ok] at h
    obtain ⟨s', ⟨e, he, hs'⟩, h⟩ := h
    obtain rfl := Except.ok.inj hs'
    refine ih (fun a ha => hf a (List.mem_cons_of_mem _ ha)) (hs.upsert e.1 e.2) (fun e' he' => ?_) h
    rcases mem_upsert he' with rfl | he'
    · exact hf a List.mem_cons_self _ he
    · exact hP e' he'

theorem getMemberName_ok {n : Node} {s : String} (h : getMemberName n = .ok s) : isBlank s = false := by
  unfold getMemberName at h
  split at h
  · cases h
  · rw [Except.bind_eq_ok] at h
    obtain ⟨text, -, h⟩ := h
    split at h
    · cases h
    · split at h
      · cases h
      · rename_i hblank
        obtain rfl := Except.ok.inj h
        simpa using hblank

theorem intParser_sendable {n : Node} {v : Value δ} (h : intParser n = .ok v) : v.Sendable := by
  obtain ⟨text, -, h⟩ := Except.bind_eq_ok.mp h
  split at h
  · split at h
    · obtain rfl := Except.ok.inj h
      exact .int _
    · cases h
  · cases h

theorem stringParser_sendable {n : Node} {v : Value δ} (h : stringParser n = .ok v) : v.Sendable := by
  obtain ⟨text, -, h⟩ := Except.bind_eq_ok.mp h
  obtain rfl := Except.ok.inj h
  exact .string _

theorem booleanParser_sendable {n : Node} {v : Value δ} (h : booleanParser n = .ok v) : v.Sendable := by
  obtain ⟨text, -, h⟩ := Except.bind_eq_ok.mp h
  split at h
  · split_ifs at h
    · obtain rfl := Except.ok.inj h
      exact .bool _
    · obtain rfl := Except.ok.inj h
      exact .bool _
    · cases h
  · cases h

theorem doubleParser_sendable [LawfulDoubleText δ] {n : Node} {v : Value δ} (h : doubleParser n = .ok v) :
    v.Sendable := by
  obtain ⟨text, -, h⟩ := Except.bind_eq_ok.mp h
  split at h
  · split at h
    · rename_i hread
      obtain rfl := Except.ok.inj h
      obtain ⟨hne, hagain⟩ := LawfulDoubleText.read_write hread
      exact .double hne hagain
    · cases h
  · cases h

theorem base64Parser_sendable {n : Node} {v : Value δ} (h : base64Parser n = .ok v) : v.Sendable := by
  obtain ⟨text, -, h⟩ := Except.bind_eq_ok.mp h
  split at h
  · obtain rfl := Except.ok.inj h
    exact .base64 _
  · cases h

theorem dateTimeParser_sendable {n : Node} {v : Value δ} (h : dateTimeParser n = .ok v) : v.Sendable := by
  obtain ⟨text, -, h⟩ := Except.bind_eq_ok.mp h
  split at h
  · rename_i htext
    obtain rfl := Except.ok.inj h
    exact .datetime (DateTime.normal_of_ofString htext)
  · cases h

theorem arrayParser_sendable {n : Node} {v : Value δ} (h : arrayParser n = .ok v)
    (ih : ∀ m : Node, sizeOf m < sizeOf n → ∀ u : Value δ, parseValue m = .ok u → u.Sendable) :
    v.Sendable := by
  -- The parts of an array and of a struct are smaller than its element.
  rw [arrayParser_eq, Except.bind_eq_ok] at h
  obtain ⟨data, hdata, h⟩ := h
  split at h
  · cases h
  · obtain ⟨els, hels, h⟩ := Except.bind_eq_ok.mp h
    obtain ⟨values, hvalues, h⟩ := Except.bind_eq_ok.mp h
    obtain rfl := Except.ok.inj h
    refine .array (mapM_forall (fun el hel => ih el ?_) hvalues)
    exact (sizeOf_child (mem_of_elementsOf hels el hel)).trans (sizeOf_child (mem_of_singleElement hdata))

theorem memberParser_sendable {n : Node} {e : String × Value δ} (h : memberParser n = .ok e)
    (ih : ∀ m : Node, sizeOf m < sizeOf n → ∀ u : Value δ, parseValue m = .ok u → u.Sendable) :
    isBlank e.1 = false ∧ e.2.Sendable := by
  rw [memberParser_eq] at h
  split at h
  · cases h
  · obtain ⟨mbr, hmbr, h⟩ := Except.bind_eq_ok.mp h
    split at h
    · cases h
    · split at h
      · cases h
      · obtain ⟨name, hname, h⟩ := Except.bind_eq_ok.mp h
        obtain ⟨value, hvalue, h⟩ := Except.bind_eq_ok.mp h
        obtain rfl := Except.ok.inj h
        refine ⟨getMemberName_ok hname, ih _ ?_ value hvalue⟩
        exact sizeOf_child (mem_of_elementsOf hmbr _ (List.getLast_mem _))

theorem structParser_sendable {n : Node} {v : Value δ} (h : structParser n = .ok v)
    (ih : ∀ m : Node, sizeOf m < sizeOf n → ∀ u : Value δ, parseValue m = .ok u → u.Sendable) :
    v.Sendable := by
  rw [structParser_eq, Except.bind_eq_ok] at h
  obtain ⟨members, hmembers, h⟩ := h
  obtain ⟨values, hvalues, h⟩ := Except.bind_eq_ok.mp h
  obtain rfl := Except.ok.inj h
  have hmember : ∀ m ∈ members, ∀ e : String × Value δ, memberParser m = .ok e →
      isBlank e.1 = false ∧ e.2.Sendable := by
    intro m hm e he
    have hlt := sizeOf_child (mem_of_elementsOf hmembers m hm)
    exact memberParser_sendable he fun k hk => ih k (hk.trans hlt)
  obtain ⟨hsorted, hall⟩ := foldlM_upsert hmember sorted_nil (by simp) hvalues
  exact .struct hsorted (fun e he => (hall e he).1) fun e he => (hall e he).2

theorem sendable_of_parse [LawfulDoubleText δ] (n : Node) :
    (∀ v : Value δ, parseValue n = .ok v → v.Sendable) ∧
      ∀ v : Value δ, typeParser n = .ok v → v.Sendable := by
  induction hk : sizeOf n using Nat.strongRecOn generalizing n with
  | _ k ih =>
    subst hk
    constructor
    · intro v h
      rw [parseValue_eq] at h
      split at h
      · cases h
      · split at h
        · obtain rfl := Except.ok.inj h
          exact .string ""
        · exact stringParser_sendable h
        · obtain ⟨el, hel, h⟩ := Except.bind_eq_ok.mp h
          exact (ih _ (sizeOf_child (mem_of_singleElement hel)) el rfl).2 v h
    · intro v h
      have hparts : ∀ m : Node, sizeOf m < sizeOf n → ∀ u : Value δ, parseValue m = .ok u → u.Sendable :=
        fun m hm => (ih _ hm m rfl).1
      rw [typeParser] at h
      split at h
      · exact intParser_sendable h
      · exact intParser_sendable h
      · exact booleanParser_sendable h
      · exact doubleParser_sendable h
      · exact stringParser_sendable h
      · exact stringParser_sendable h
      · obtain rfl := Except.ok.inj h
        exact .nil
      · exact base64Parser_sendable h
      · exact dateTimeParser_sendable h
      · exact arrayParser_sendable h hparts
      · exact structParser_sendable h hparts
      · cases h

/-- **A value comes back from its document, however it is formatted, exactly when it is sendable.** -/
theorem round_trip_iff [LawfulDoubleText δ] (v : Value δ) {n : Node} (h : Formatted v.toXml n) :
    parseValue n = .ok v ↔ v.Sendable :=
  ⟨(sendable_of_parse n).1 v, fun hv => parseValue_toXml hv h⟩

/-- One `double`, 0.5. -/
instance : StdText Unit where
  write _ := "0.5"
  read s := if s = "0.5" then some () else none
  strftime := Tm.iso8601
  strftime_normal _ _ := rfl

instance : LawfulDoubleText Unit where
  read_write _ := ⟨show "0.5" ≠ "" by decide, rfl⟩

theorem round_trip_iff_half :
    parseValue (.element 1 "value" [.text 1 "\n ", .element 2 "array" [.element 2 "data"
      [.text 2 "\n", .element 3 "value" [.element 3 "double" [.text 3 "0.5"]], .other 3 "comment"]]]) =
        .ok (Value.array [.double ()]) ↔
      (Value.array [.double ()]).Sendable :=
  round_trip_iff _ (.elements (.blank rfl (.child (.elements (.child (.elements (.blank rfl
    (.child (.elements (.child (.text (by decide)) .nil)) (.other .nil)))) .nil)) .nil)))

end DispCalc.Iqxmlrpc
