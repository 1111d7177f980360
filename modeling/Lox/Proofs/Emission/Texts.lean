import Lox.Proofs.Emission.Numbers
import Lox.Proofs.Emission.Strings
import Lox.Proofs.Scoping.Keys

namespace Lox

theorem Entries.set_of_not_mem {κ α : Type} [DecidableEq κ] {key : κ} {v : α} {es : Entries κ α} (h : key ∉ es.keys) :
    es.set key v = es ++ [(key, v)] := by
  induction es with
  | nil => rfl
  | cons e es ih =>
    obtain ⟨k, w⟩ := e
    obtain ⟨hk, hes⟩ := List.ne_and_not_mem_of_not_mem_cons h
    rw [set, if_neg hk.symm, ih hes]
    rfl

inductive Value.Rereads : Value → Prop
  | nil : Rereads .nil
  | bool (b) : Rereads (.bool b)
  | whole (i) : Rereads (.whole i)
  | number {x} : (Number.isFinite x = true → Json.reread? x = some x) → Rereads (.number x)
  | text (s) : Rereads (.text s)
  | list {vs} : (∀ v ∈ vs, Rereads v) → Rereads (.list vs)
  | record {fs} : (Entries.keys fs).Nodup → (∀ p ∈ fs, Rereads p.2) → Rereads (.record fs)

mutual

def Value.depth : Value → Nat
  | .list vs => 1 + depthItems vs
  | .record fs => 1 + depthFields fs
  | _ => 1

def Value.depthItems : List Value → Nat
  | [] => 0
  | v :: vs => max v.depth (depthItems vs)

def Value.depthFields : List (String × Value) → Nat
  | [] => 0
  | (_, v) :: fs => max v.depth (depthFields fs)

end

namespace Value

theorem depth_pos (v : Value) : 0 < v.depth := by
  cases v <;> simp only [depth] <;> omega

theorem depth_le_items {v : Value} {vs : List Value} (h : v ∈ vs) : v.depth ≤ depthItems vs := by
  induction h with
  | head => exact Nat.le_max_left _ _
  | tail _ _ ih => exact Nat.le_trans ih (Nat.le_max_right _ _)

theorem depth_le_fields {p : String × Value} {fs : List (String × Value)} (h : p ∈ fs) : p.2.depth ≤ depthFields fs := by
  induction h with
  | head => exact Nat.le_max_left _ _
  | tail _ _ ih => exact Nat.le_trans ih (Nat.le_max_right _ _)

end Value

namespace Json

def Gives {α : Type} (deep : Prop) (r : Except ReadError α) (a : α) : Prop :=
  deep ∧ r = .error .tooDeep ∨ r = .ok a

namespace Gives

variable {α β : Type} {deep deep' : Prop} {r : Except ReadError α} {a : α} {b : β}

theorem imp (h : Gives deep r a) (himp : deep → deep') : Gives deep' r a :=
  h.imp_left (And.imp_left himp)

theorem bind {f : α → Except ReadError β} (h : Gives deep r a) (hf : Gives deep (f a) b) : Gives deep (r >>= f) b := by
  rcases h with ⟨hdeep, rfl⟩ | rfl
  · exact .inl ⟨hdeep, rfl⟩
  · exact hf

theorem map (h : Gives deep r a) (f : α → β) : Gives deep (r.map f) (f a) := by
  rcases h with ⟨hdeep, rfl⟩ | rfl
  · exact .inl ⟨hdeep, rfl⟩
  · exact .inr rfl

end Gives

structure Takes {α : Type} (deep : Prop) (reader : Reader α) (text : List Char) (a : α) : Prop where
  head : ∃ c cs, text = c :: cs ∧ isSpace c = false ∧ c ≠ ']'
  read : ∀ tail, Boundary tail → Gives deep (reader (text ++ tail)) (a, tail)

theorem Takes.imp {α : Type} {deep deep' : Prop} {reader : Reader α} {text : List Char} {a : α}
    (h : Takes deep reader text a) (himp : deep → deep') : Takes deep' reader text a :=
  ⟨h.head, fun tail htail => (h.read tail htail).imp himp⟩

def Blank (cs : List Char) : Prop :=
  ∀ c ∈ cs, isSpace c = true

theorem skipSpace_append {bs : List Char} (h : Blank bs) (cs : List Char) : skipSpace (bs ++ cs) = skipSpace cs :=
  List.dropWhile_append_of_pos h

theorem skipSpace_cons {c : Char} (h : isSpace c = false) (cs : List Char) : skipSpace (c :: cs) = c :: cs :=
  List.dropWhile_cons_of_neg (by simp [h])

theorem Boundary.blank_append {bs cs : List Char} (h : Blank bs) (hcs : Boundary cs) : Boundary (bs ++ cs) := by
  cases bs with
  | nil => exact hcs
  | cons b bs => exact .space (h b List.mem_cons_self)

theorem intercalate_cons_append {α : Type} (text : α → List Char) (sep after : List Char) (a : α) (as : List α) :
    sep.intercalate ((a :: as).map text) ++ after =
      text a ++ if as = [] then after else sep ++ (sep.intercalate (as.map text) ++ after) := by
  cases as with
  | nil => simp
  | cons b as => simp [List.intercalate_cons_cons]

section

variable {deep : Prop} {value : Reader Value} {count : Nat} {cs rest tail : List Char} {v : Value}

theorem readItems_last (h : Gives deep (value (skipSpace cs)) (v, rest)) (hrest : skipSpace rest = ']' :: tail)
    (before : List Value) : Gives deep (readItems value (count + 1) before cs) (before.reverse ++ [v], tail) := by
  rw [readItems]
  refine h.bind (.inr ?_)
  simp [hrest, pure, Except.pure]

theorem readItems_more {before : List Value} {r : List Value × List Char} (h : Gives deep (value (skipSpace cs)) (v, rest))
    (hrest : skipSpace rest = ',' :: tail) (hmore : Gives deep (readItems value count (v :: before) tail) r) :
    Gives deep (readItems value (count + 1) before cs) r := by
  rw [readItems]
  refine h.bind ?_
  simpa [hrest] using hmore

variable {fields : Entries String Value} {name : String} {named valued : List Char}

section

variable (hname : skipSpace cs = '"' :: named) (hnamed : readString [] named = .ok (name, ':' :: valued))
  (h : Gives deep (value (skipSpace valued)) (v, rest))

include hname hnamed h

theorem readFields_last (hrest : skipSpace rest = '}' :: tail) :
    Gives deep (readFields value (count + 1) fields cs) (fields.set name v, tail) := by
  have hcolon : skipSpace (':' :: valued) = ':' :: valued := skipSpace_cons (by decide) valued
  rw [readFields, hname]
  refine Gives.bind (.inr hnamed) ?_
  dsimp only
  rw [hcolon]
  refine h.bind (.inr ?_)
  simp [hrest, pure, Except.pure]

theorem readFields_more {r : Entries String Value × List Char} (hrest : skipSpace rest = ',' :: tail)
    (hmore : Gives deep (readFields value count (fields.set name v) tail) r) :
    Gives deep (readFields value (count + 1) fields cs) r := by
  have hcolon : skipSpace (':' :: valued) = ':' :: valued := skipSpace_cons (by decide) valued
  rw [readFields, hname]
  refine Gives.bind (.inr hnamed) ?_
  dsimp only
  rw [hcolon]
  refine h.bind ?_
  simpa [hrest] using hmore

end

theorem Takes.skipSpace_append {α : Type} {reader : Reader α} {text : List Char} {a : α} (h : Takes deep reader text a)
    {bs : List Char} (hbs : Blank bs) (rest : List Char) : skipSpace (bs ++ (text ++ rest)) = text ++ rest := by
  obtain ⟨c, cs, rfl, hc, -⟩ := h.head
  rw [Json.skipSpace_append hbs, List.cons_append, skipSpace_cons hc]

variable {sep bs after : List Char} (text : Value → List Char)

theorem readItems_texts (tail : List Char) (hsep : Blank sep) (hafter : Blank after) {vs : List Value}
    (hvs : ∀ v ∈ vs, Takes deep value (text v) v) (hne : vs ≠ []) (hcount : vs.length ≤ count) (before : List Value)
    (hbs : Blank bs) (hcs : cs = bs ++ ((',' :: sep).intercalate (vs.map text) ++ (after ++ ']' :: tail))) :
    Gives deep (readItems value count before cs) (before.reverse ++ vs, tail) := by
  induction vs generalizing count before bs cs with
  | nil => exact absurd rfl hne
  | cons v vs ih =>
    obtain ⟨hv, hvs⟩ := List.forall_mem_cons.mp hvs
    obtain ⟨count, rfl⟩ := Nat.exists_eq_add_one.mpr (Nat.zero_lt_of_lt hcount)
    rw [intercalate_cons_append] at hcs
    -- the last item stands before the bracket, each of the others before a comma
    by_cases hlast : vs = []
    · rw [if_pos hlast] at hcs
      have hend : Boundary (after ++ ']' :: tail) := .blank_append hafter (.mark (by decide))
      have hclose : skipSpace (after ++ ']' :: tail) = ']' :: tail := by
        rw [skipSpace_append hafter, skipSpace_cons (by decide)]
      have hskip := hv.skipSpace_append hbs (after ++ ']' :: tail)
      rw [← hcs] at hskip
      rw [hlast]
      exact readItems_last (hskip ▸ hv.read _ hend) hclose before
    · rw [if_neg hlast] at hcs
      have hskip := hv.skipSpace_append hbs
        (',' :: sep ++ ((',' :: sep).intercalate (vs.map text) ++ (after ++ ']' :: tail)))
      rw [← hcs] at hskip
      have hnext := ih hvs hlast (Nat.le_of_succ_le_succ hcount) (v :: before) hsep rfl
      rw [List.reverse_cons, List.append_assoc] at hnext
      exact readItems_more (hskip ▸ hv.read _ (.mark (by decide))) (skipSpace_cons (by decide) _) hnext

def fieldText (text : Value → List Char) (p : String × Value) : List Char :=
  '"' :: (p.1.toList.flatMap escaped ++ '"' :: ':' :: ' ' :: text p.2)

theorem readFields_texts (tail : List Char) (fields : Entries String Value) (hsep : Blank sep) (hafter : Blank after)
    {fs : Entries String Value} (hfs : ∀ p ∈ fs, Takes deep value (text p.2) p.2) (hne : fs ≠ [])
    (hcount : fs.length ≤ count) (hkeys : (Entries.keys (fields ++ fs)).Nodup) (hbs : Blank bs)
    (hcs : cs = bs ++ ((',' :: sep).intercalate (fs.map (fieldText text)) ++ (after ++ '}' :: tail))) :
    Gives deep (readFields value count fields cs) (fields ++ fs, tail) := by
  induction fs generalizing count fields bs cs with
  | nil => exact absurd rfl hne
  | cons p fs ih =>
    obtain ⟨name, v⟩ := p
    obtain ⟨hv, hfs⟩ := List.forall_mem_cons.mp hfs
    obtain ⟨count, rfl⟩ := Nat.exists_eq_add_one.mpr (Nat.zero_lt_of_lt hcount)
    -- a name that no field has yet goes to the end
    have hset : fields.set name v = fields ++ [(name, v)] := by
      apply Entries.set_of_not_mem
      rw [Entries.keys, List.map_append] at hkeys
      exact fun hm => (List.nodup_append.mp hkeys).2.2 name hm name List.mem_cons_self rfl
    rw [intercalate_cons_append] at hcs
    have hname : ∀ rest, cs = bs ++ (fieldText text (name, v) ++ rest) →
        skipSpace cs = '"' :: (name.toList.flatMap escaped ++ '"' :: ':' :: ' ' :: (text v ++ rest)) := by
      rintro rest rfl
      rw [skipSpace_append hbs, fieldText, List.cons_append, skipSpace_cons (by decide)]
      simp
    have hnamed : ∀ rest, readString [] (name.toList.flatMap escaped ++ '"' :: ':' :: ' ' :: (text v ++ rest)) =
        .ok (name, ':' :: ' ' :: (text v ++ rest)) := by
      intro rest
      rw [readString_escaped, List.reverse_nil, List.nil_append, String.ofList_toList]
    have hskip : ∀ rest, skipSpace (' ' :: (text v ++ rest)) = text v ++ rest :=
      hv.skipSpace_append (List.forall_mem_singleton.mpr rfl : Blank [' '])
    by_cases hlast : fs = []
    · rw [if_pos hlast] at hcs
      have hend : Boundary (after ++ '}' :: tail) := .blank_append hafter (.mark (by decide))
      have hclose : skipSpace (after ++ '}' :: tail) = '}' :: tail := by
        rw [skipSpace_append hafter, skipSpace_cons (by decide)]
      rw [hlast, ← hset]
      exact readFields_last (hname _ hcs) (hnamed _) ((hskip _).symm ▸ hv.read _ hend) hclose
    · rw [if_neg hlast] at hcs
      rw [List.append_cons] at hkeys
      have hnext := ih _ hfs hlast (Nat.le_of_succ_le_succ hcount) hkeys hsep rfl
      rw [← List.append_cons, ← hset] at hnext
      exact readFields_more (hname _ hcs) (hnamed _) ((hskip _).symm ▸ hv.read _ (.mark (by decide)))
        (skipSpace_cons (by decide) _) hnext

end

section

variable {sep : List Char} {ts : List (List Char)}

theorem length_le_intercalate {t : List Char} (h : t ∈ ts) : t.length ≤ (sep.intercalate ts).length := by
  induction ts with
  | nil => cases h
  | cons u ts ih =>
    cases ts with
    | nil => exact Nat.le_of_eq (by rw [List.mem_singleton.mp h, List.intercalate_singleton])
    | cons w ts =>
      rw [List.intercalate_cons_cons, List.length_append, List.length_append]
      rcases List.mem_cons.mp h with rfl | h
      · omega
      · have hle := ih h
        omega

theorem length_parts_le (h : ∀ t ∈ ts, t ≠ []) : ts.length ≤ (sep.intercalate ts).length := by
  induction ts with
  | nil => exact Nat.zero_le _
  | cons u ts ih =>
    obtain ⟨hu, hts⟩ := List.forall_mem_cons.mp h
    have hpos : 0 < u.length := List.length_pos_iff.mpr hu
    cases ts with
    | nil => rwa [List.intercalate_singleton]
    | cons w ts =>
      have hle := ih hts
      rw [List.intercalate_cons_cons, List.length_append, List.length_append, List.length_cons]
      omega

end

namespace Style

variable (style : Style)

theorem blank_lineBreak (level : Nat) : Blank (style.lineBreak level).toList := by
  unfold lineBreak
  split
  · exact nofun
  · intro c hc
    rw [String.toList_append] at hc
    rcases List.mem_append.mp hc with hc | hc
    · rw [List.mem_singleton.mp hc]
      rfl
    · rw [String.toList_ofList] at hc
      rw [List.eq_of_mem_replicate hc]
      rfl

theorem separator_eq (level : Nat) : ∃ bs, (style.separator level).toList = ',' :: bs ∧ Blank bs := by
  unfold separator
  split
  · exact ⟨[' '], rfl, List.forall_mem_singleton.mpr rfl⟩
  · exact ⟨(style.lineBreak level).toList, String.toList_append, blank_lineBreak style level⟩

def chars (level : Nat) (v : Value) : List Char :=
  (style.value level v).toList

theorem itemTexts_eq (level : Nat) (vs : List Value) :
    (style.itemTexts level vs).map String.toList = vs.map (style.chars level) := by
  induction vs with
  | nil => rfl
  | cons v vs ih =>
    rw [itemTexts, List.map_cons, ih, List.map_cons]
    rfl

theorem fieldTexts_eq (level : Nat) (fs : Entries String Value) :
    (style.fieldTexts level fs).map String.toList = fs.map (fieldText (style.chars level)) := by
  induction fs with
  | nil => rfl
  | cons p fs ih =>
    have hfield : (string p.1 ++ ": " ++ style.value level p.2).toList = fieldText (style.chars level) p := by
      simp [fieldText, string, chars]
    rw [fieldTexts, List.map_cons, ih, hfield, List.map_cons]

theorem toList_enclose_nil (level : Nat) (opening closing : String) :
    (style.enclose level opening closing []).toList = opening.toList ++ closing.toList :=
  String.toList_append

theorem toList_enclose {α : Type} {text : α → List Char} {as : List α} {parts : List String} {level size : Nat}
    {opening closing : String} (hparts : parts.map String.toList = as.map text) (hne : as ≠ [])
    (htext : ∀ a ∈ as, text a ≠ []) (hsize : (style.enclose level opening closing parts).toList.length ≤ size) :
    ∃ before sep after, Blank before ∧ Blank sep ∧ Blank after ∧
      (style.enclose level opening closing parts).toList = opening.toList ++ (before ++
        ((',' :: sep).intercalate (as.map text) ++ (after ++ closing.toList))) ∧
      (∀ a ∈ as, (text a).length ≤ size) ∧ as.length ≤ size := by
  obtain ⟨sep, hsep, hblank⟩ := style.separator_eq (level + 1)
  have hempty : parts.isEmpty = false := by
    cases parts with
    | nil => exact absurd (List.map_eq_nil_iff.mp hparts.symm) hne
    | cons s parts => rfl
  have heq : (style.enclose level opening closing parts).toList = opening.toList ++ ((style.lineBreak (level + 1)).toList ++
      ((',' :: sep).intercalate (as.map text) ++ ((style.lineBreak level).toList ++ closing.toList))) := by
    rw [enclose, hempty, ← hsep, ← hparts]
    simp [String.toList_intercalate]
  have hlen : ((',' :: sep).intercalate (as.map text)).length ≤ size := by
    rw [heq] at hsize
    simp only [List.length_append] at hsize
    omega
  refine ⟨_, sep, _, style.blank_lineBreak (level + 1), hblank, style.blank_lineBreak level, heq, ?_, ?_⟩
  · exact fun a ha => Nat.le_trans (length_le_intercalate (List.mem_map_of_mem ha)) hlen
  · rw [← List.length_map text]
    exact Nat.le_trans (length_parts_le (List.forall_mem_map.mpr htext)) hlen

end Style

theorem head_of_numeric {s : String} (hne : s.toList ≠ []) (h : Numeric s) :
    ∃ c cs, s.toList = c :: cs ∧ isSpace c = false ∧ c ≠ ']' := by
  obtain ⟨c, cs, hcs⟩ := List.exists_cons_of_ne_nil hne
  have hc : isNumeral c = true := h c (by rw [hcs]; exact List.mem_cons_self)
  refine ⟨c, cs, hcs, isSpace_of_isNumeral hc, ?_⟩
  rintro rfl
  cases hc

theorem head_enclose (style : Style) (level : Nat) {opening : String} (closing : String) (parts : List String) {c : Char}
    (h : opening.toList = [c]) : ∃ cs, (style.enclose level opening closing parts).toList = c :: cs := by
  unfold Style.enclose
  split <;> simp [h]

theorem head_number (x : Float) : ∃ c cs, (Number.json.write x).toList = c :: cs ∧ isSpace c = false ∧ c ≠ ']' := by
  cases hx : Number.anatomy x with
  | nan =>
    rw [Number.Layout.write, hx]
    exact ⟨'N', ['a', 'N'], rfl, rfl, by decide⟩
  | infinite negative =>
    rw [Number.Layout.write, hx]
    cases negative
    · exact ⟨'I', _, rfl, rfl, by decide⟩
    · exact ⟨'-', _, rfl, rfl, by decide⟩
  | finite d =>
    refine head_of_numeric (fun he => ?_) (Number.numeric_write Number.json hx)
    have hmarked := Number.marked_write Number.json hx
    simp [he] at hmarked

theorem head_value (style : Style) (level : Nat) (v : Value) :
    ∃ c cs, style.chars level v = c :: cs ∧ isSpace c = false ∧ c ≠ ']' := by
  unfold Style.chars
  cases v with
  | nil =>
    rw [Style.value]
    exact ⟨'n', _, rfl, rfl, by decide⟩
  | bool b =>
    cases b <;> rw [Style.value]
    · exact ⟨'f', _, rfl, rfl, by decide⟩
    · exact ⟨'t', _, rfl, rfl, by decide⟩
  | whole i =>
    rw [Style.value]
    exact head_of_numeric (toString_ne_nil i) (numeric_toString_int i)
  | number x =>
    rw [Style.value]
    exact head_number x
  | text s =>
    rw [Style.value, string, String.toList_ofList]
    exact ⟨'"', _, rfl, rfl, by decide⟩
  | list vs =>
    obtain ⟨cs, hcs⟩ := head_enclose style level "]" (style.itemTexts (level + 1) vs) (rfl : "[".toList = ['['])
    rw [Style.value]
    exact ⟨'[', cs, hcs, rfl, by decide⟩
  | record fs =>
    obtain ⟨cs, hcs⟩ := head_enclose style level "\x7d" (style.fieldTexts (level + 1) fs) (rfl : "\x7b".toList = ['{'])
    rw [Style.value]
    exact ⟨'{', cs, hcs, rfl, by decide⟩

section

variable {deep : Prop} {size depth : Nat} {tail : List Char}

theorem readValue_text (s : String) :
    readValue size (depth + 1) ((string s).toList ++ tail) = .ok (.text s, tail) := by
  have hs : (string s).toList ++ tail = '"' :: (s.toList.flatMap escaped ++ '"' :: tail) := by
    simp [string]
  rw [hs, readValue, readString_escaped, List.reverse_nil, List.nil_append, String.ofList_toList]
  rfl

theorem readValue_bracket {c : Char} {cs rest : List Char} (h : skipSpace rest = c :: cs) (hc : c ≠ ']') :
    readValue size (depth + 1) ('[' :: rest) =
      (readItems (readValue size depth) size [] (c :: cs)).map fun p => (.list p.1, p.2) := by
  rw [readValue, h]
  split
  · exact absurd (List.cons.inj ‹_›).1 hc
  · rfl

theorem readValue_brace {c : Char} {cs rest : List Char} (h : skipSpace rest = c :: cs) (hc : c ≠ '}') :
    readValue size (depth + 1) ('{' :: rest) =
      (readFields (readValue size depth) size [] (c :: cs)).map fun p => (.record p.1, p.2) := by
  rw [readValue, h]
  split
  · exact absurd (List.cons.inj ‹_›).1 hc
  · rfl

variable {style : Style} {level : Nat}

theorem readValue_list {vs : List Value} (hsize : (style.chars level (.list vs)).length ≤ size)
    (hvs : ∀ v ∈ vs, (style.chars (level + 1) v).length ≤ size →
      Takes deep (readValue size depth) (style.chars (level + 1) v) v) :
    Gives deep (readValue size (depth + 1) (style.chars level (.list vs) ++ tail)) (.list vs, tail) := by
  rw [Style.chars, Style.value] at hsize ⊢
  by_cases hempty : vs = []
  · subst hempty
    rw [Style.itemTexts, style.toList_enclose_nil]
    exact .inr rfl
  have hne : ∀ v ∈ vs, style.chars (level + 1) v ≠ [] := by
    intro v _
    obtain ⟨c, cs, hcs, -⟩ := head_value style (level + 1) v
    simp [hcs]
  obtain ⟨before, sep, after, hbefore, hsep, hafter, htext, hlen, hcount⟩ :=
    style.toList_enclose (style.itemTexts_eq (level + 1) vs) hempty hne hsize
  have hitems : ∀ v ∈ vs, Takes deep (readValue size depth) (style.chars (level + 1) v) v :=
    fun v hv => hvs v hv (hlen v hv)
  obtain ⟨v, us, rfl⟩ := List.exists_cons_of_ne_nil hempty
  obtain ⟨c, cs, hcs, hspace, hc⟩ := head_value style (level + 1) v
  have hopen : (style.enclose level "[" "]" (style.itemTexts (level + 1) (v :: us))).toList ++ tail = '[' :: (before ++
      ((',' :: sep).intercalate ((v :: us).map (style.chars (level + 1))) ++ (after ++ ']' :: tail))) := by
    rw [htext]
    simp
  have hread := readItems_texts _ tail hsep hafter hitems hempty hcount [] (nofun : Blank []) rfl
  rw [List.nil_append] at hread
  rw [intercalate_cons_append, hcs, List.cons_append] at hread hopen
  rw [hopen, readValue_bracket (by rw [skipSpace_append hbefore, skipSpace_cons hspace]) hc]
  exact hread.map _

theorem readValue_record {fs : Entries String Value} (hsize : (style.chars level (.record fs)).length ≤ size)
    (hkeys : fs.keys.Nodup) (hfs : ∀ p ∈ fs, (style.chars (level + 1) p.2).length ≤ size →
      Takes deep (readValue size depth) (style.chars (level + 1) p.2) p.2) :
    Gives deep (readValue size (depth + 1) (style.chars level (.record fs) ++ tail)) (.record fs, tail) := by
  rw [Style.chars, Style.value] at hsize ⊢
  by_cases hempty : fs = []
  · subst hempty
    rw [Style.fieldTexts, style.toList_enclose_nil]
    exact .inr rfl
  obtain ⟨before, sep, after, hbefore, hsep, hafter, htext, hlen, hcount⟩ :=
    style.toList_enclose (style.fieldTexts_eq (level + 1) fs) hempty (fun _ _ => List.cons_ne_nil _ _) hsize
  have hfields : ∀ p ∈ fs, Takes deep (readValue size depth) (style.chars (level + 1) p.2) p.2 := by
    intro p hp
    refine hfs p hp (Nat.le_trans ?_ (hlen p hp))
    simp only [fieldText, List.length_cons, List.length_append]
    omega
  obtain ⟨p, us, rfl⟩ := List.exists_cons_of_ne_nil hempty
  have hopen : (style.enclose level "\x7b" "\x7d" (style.fieldTexts (level + 1) (p :: us))).toList ++ tail =
      '{' :: (before ++
        ((',' :: sep).intercalate ((p :: us).map (fieldText (style.chars (level + 1)))) ++ (after ++ '}' :: tail))) := by
    rw [htext]
    simp
  have hread := readFields_texts _ tail [] hsep hafter hfields hempty hcount hkeys (nofun : Blank []) rfl
  rw [List.nil_append] at hread
  rw [intercalate_cons_append, fieldText, List.cons_append] at hread hopen
  rw [hopen, readValue_brace (by rw [skipSpace_append hbefore, skipSpace_cons (by decide)]) (by decide)]
  exact hread.map _

end

theorem takes_of_read {v : Value} {style : Style} {level size depth : Nat}
    (h : ∀ depth tail, Boundary tail →
      Gives (depth + 1 < v.depth) (readValue size (depth + 1) (style.chars level v ++ tail)) (v, tail)) :
    Takes (depth < v.depth) (readValue size depth) (style.chars level v) v := by
  refine ⟨head_value style level v, fun tail htail => ?_⟩
  cases depth with
  | zero => exact .inl ⟨v.depth_pos, rfl⟩
  | succ depth => exact h depth tail htail

theorem takes_value {v : Value} (h : v.Rereads) {style : Style} {level size depth : Nat}
    (hsize : (style.chars level v).length ≤ size) :
    Takes (depth < v.depth) (readValue size depth) (style.chars level v) v := by
  induction h generalizing level depth with
  | nil =>
    refine takes_of_read fun depth tail htail => ?_
    rw [Style.chars, Style.value]
    exact .inr rfl
  | bool b =>
    refine takes_of_read fun depth tail htail => ?_
    rw [Style.chars]
    cases b <;> rw [Style.value] <;> exact .inr rfl
  | whole i =>
    refine takes_of_read fun depth tail htail => ?_
    rw [Style.chars, Style.value]
    exact .inr (readValue_whole htail size depth i)
  | number hx =>
    refine takes_of_read fun depth tail htail => ?_
    rw [Style.chars, Style.value]
    exact .inr (readValue_number htail size depth hx)
  | text s =>
    refine takes_of_read fun depth tail htail => ?_
    rw [Style.chars, Style.value]
    exact .inr (readValue_text s)
  | @list vs _ ih =>
    refine takes_of_read fun depth _ _ => readValue_list hsize fun v hv hlen => (ih v hv hlen).imp fun hdeep => ?_
    have hle := Value.depth_le_items hv
    rw [Value.depth]
    omega
  | @record fs hkeys _ ih =>
    refine takes_of_read fun depth _ _ => readValue_record hsize hkeys fun p hp hlen => (ih p hp hlen).imp fun hdeep => ?_
    have hle := Value.depth_le_fields hp
    rw [Value.depth]
    omega

theorem read_gives {v : Value} (h : v.Rereads) (style : Style) : Gives (depthLimit < v.depth) (read (write style v)) v := by
  have htakes : Takes _ (readValue (style.chars 0 v).length depthLimit) (style.chars 0 v) v := takes_value h (Nat.le_refl _)
  obtain ⟨c, cs, hcs, hspace, -⟩ := htakes.head
  have hskip : skipSpace (style.chars 0 v) = style.chars 0 v := by
    rw [hcs, skipSpace_cons hspace]
  have hread : read (write style v) = readValue (style.chars 0 v).length depthLimit (skipSpace (style.chars 0 v)) >>=
      fun p => if (skipSpace p.2).isEmpty then pure p.1 else .error .malformed := rfl
  have hvalue := htakes.read [] .nil
  rw [List.append_nil] at hvalue
  rw [hread, hskip]
  exact hvalue.bind (.inr rfl)

theorem read_write {v : Value} (h : v.Rereads) (style : Style) (hdeep : read (write style v) ≠ .error .tooDeep) :
    read (write style v) = .ok v :=
  (read_gives h style).resolve_left fun htoo => hdeep htoo.2

theorem read_write_of_depth {v : Value} (h : v.Rereads) (style : Style) (hdepth : v.depth ≤ depthLimit) :
    read (write style v) = .ok v :=
  (read_gives h style).resolve_left fun htoo => absurd htoo.1 (Nat.not_lt.mpr hdepth)

section

variable {c : Char}

theorem not_mem_intercalate {sep : List Char} {ts : List (List Char)} (hsep : c ∉ sep) (hts : ∀ t ∈ ts, c ∉ t) :
    c ∉ sep.intercalate ts := by
  induction ts with
  | nil => exact List.not_mem_nil
  | cons t ts ih =>
    obtain ⟨ht, hts⟩ := List.forall_mem_cons.mp hts
    cases ts with
    | nil => rwa [List.intercalate_singleton]
    | cons u ts =>
      rw [List.intercalate_cons_cons, List.mem_append, List.mem_append]
      rintro ((hm | hm) | hm)
      · exact ht hm
      · exact hsep hm
      · exact ih hts hm

theorem not_mem_lineBreak (style : Style) (level : Nat) : '\r' ∉ (style.lineBreak level).toList := by
  unfold Style.lineBreak
  split <;> simp

theorem not_mem_enclose (style : Style) {level : Nat} {opening closing : String} {parts : List String}
    (hopening : '\r' ∉ opening.toList) (hclosing : '\r' ∉ closing.toList)
    (hparts : ∀ t ∈ parts.map String.toList, '\r' ∉ t) :
    '\r' ∉ (style.enclose level opening closing parts).toList := by
  have hbreak := not_mem_lineBreak style
  have hsep : '\r' ∉ (style.separator (level + 1)).toList := by
    unfold Style.separator
    split
    · decide
    · simpa using hbreak (level + 1)
  have hinside := not_mem_intercalate hsep hparts
  unfold Style.enclose
  split
  · simp [hopening, hclosing]
  · simp [hopening, hclosing, hbreak, hinside, String.toList_intercalate]

theorem not_mem_of_numeric {s : String} (h : Numeric s) : '\r' ∉ s.toList :=
  fun hm => absurd (h _ hm) (by decide)

theorem not_mem_number (x : Float) : '\r' ∉ (Number.json.write x).toList := by
  cases hx : Number.anatomy x with
  | finite d => exact not_mem_of_numeric (Number.numeric_write Number.json hx)
  | nan =>
    rw [Number.Layout.write, hx]
    decide
  | infinite negative =>
    rw [Number.Layout.write, hx]
    cases negative <;> decide

theorem not_mem_string (s : String) : '\r' ∉ (string s).toList := by
  simp [string, not_mem_escaped]

theorem not_mem_chars {v : Value} (h : v.Rereads) (style : Style) (level : Nat) : '\r' ∉ style.chars level v := by
  induction h generalizing level with
  | nil =>
    rw [Style.chars, Style.value]
    decide
  | bool b =>
    rw [Style.chars]
    cases b <;> rw [Style.value] <;> decide
  | whole i =>
    rw [Style.chars, Style.value]
    exact not_mem_of_numeric (numeric_toString_int i)
  | number =>
    rw [Style.chars, Style.value]
    exact not_mem_number _
  | text s =>
    rw [Style.chars, Style.value]
    exact not_mem_string s
  | list _ ih =>
    rw [Style.chars, Style.value]
    apply not_mem_enclose style (by decide) (by decide)
    rw [style.itemTexts_eq]
    exact List.forall_mem_map.mpr fun v hv => ih v hv (level + 1)
  | record _ _ ih =>
    rw [Style.chars, Style.value]
    apply not_mem_enclose style (by decide) (by decide)
    rw [style.fieldTexts_eq]
    refine List.forall_mem_map.mpr fun p hp => ?_
    have hv := ih p hp (level + 1)
    simp [fieldText, not_mem_escaped, hv]

end

end Json

end Lox
