import Fsfuse.ForStd.List
import Fsfuse.Native.Config

/-!
# Layers of configuration

An item is meant to have the value of the last layer that mentions it, and its default if none
does. A file mentions an item if it has a text for it. Of a string or an integer it is to have one;
that of an integer is a number as C writes them, in decimal, octal or hexadecimal digits, with or
without white space around it.

The loader marks every collection present in every file it reads, so a file that does not
mention a collection empties it: there the last file that can be read decides alone.

* `longToInt_strtoul` — a number that an `int` can have is read as that;
* `read_inForce_iff` — when a reader gives the value in force.
-/

namespace Fsfuse.Native.Config

/-! ### Numbers -/

/-- The number that digits are in a base, if they are digits of it. -/
def digitsNumber (base : Nat) (digits : List UInt8) : Option Nat :=
  if digits.all (digitValue · < base) then
    some (Nat.ofDigits base (digits.map digitValue).reverse)
  else none

/-- The number that a text without a sign is: in hexadecimal digits behind `0x`, in octal ones
    behind a 0, and else in decimal ones. -/
def unsignedNumber : List UInt8 → Option Nat
  | 48 :: 120 :: digit :: digits | 48 :: 88 :: digit :: digits => digitsNumber 16 (digit :: digits)
  | 48 :: digits => digitsNumber 8 digits
  | [] => none
  | digits => digitsNumber 10 digits

/-- A text without the white space around it. -/
def trim (text : List UInt8) : List UInt8 := (text.dropWhile (isSpace ·)).rdropWhile (isSpace ·)

/-- The number that a text is, with a sign in front of it or none. -/
def number (text : List UInt8) : Option Int :=
  match trim text with
  | 45 :: digits => (unsignedNumber digits).map fun n : Nat => -(n : Int)
  | 43 :: digits => (unsignedNumber digits).map fun n : Nat => (n : Int)
  | digits => (unsignedNumber digits).map fun n : Nat => (n : Int)

example : number (ascii "0444") = some 292 ∧ number (ascii " -1\n") = some (-1) ∧
    number (ascii "1 2") = none := by decide

/-- Digits are read one after the other, from the first on. -/
theorem foldl_digitValue_of_digitsNumber {base n : Nat} {digits : List UInt8}
    (h : digitsNumber base digits = some n) :
    digits.foldl (fun (n : Int) c => n * base + digitValue c) 0 = n := by
  obtain ⟨-, hvalue⟩ := Option.ite_none_right_eq_some.mp h
  obtain rfl := Option.some.inj hvalue
  clear h hvalue
  induction digits using List.reverseRecOn with
  | nil => rfl
  | append_singleton digits digit ih =>
    -- the last digit is the first of the little-endian ones
    rw [List.foldl_append, ih, List.map_append, List.reverse_append]
    show _ = ((Nat.ofDigits base (digitValue digit :: (digits.map digitValue).reverse) : Nat) : Int)
    rw [Nat.ofDigits_cons]
    simp only [List.foldl_cons, List.foldl_nil]
    push_cast
    ring

/-- White space is no digit. -/
theorem digitValue_of_isSpace {c : UInt8} (h : isSpace c) : digitValue c = 36 := by
  have h' : c.toNat = 32 ∨ 9 ≤ c.toNat ∧ c.toNat ≤ 13 := by
    simpa [isSpace, UInt8.le_iff_toNat_le, ← UInt8.toNat_inj] using h
  simp only [digitValue, UInt8.le_iff_toNat_le]
  rw [if_neg (by simp; omega), if_neg (by simp; omega), if_neg (by simp; omega)]

/-- All of the digits are taken, and none of the white space behind them. -/
theorem takeWhile_of_digitsNumber {base n : Nat} (hbase : base ≤ 36) {digits spaces : List UInt8}
    (hspaces : ∀ c ∈ spaces, isSpace c) (h : digitsNumber base digits = some n) :
    (digits ++ spaces).takeWhile (digitValue · < base) = digits := by
  obtain ⟨hall, -⟩ := Option.ite_none_right_eq_some.mp h
  have hnone : spaces.takeWhile (digitValue · < base) = [] := by
    cases spaces with
    | nil => rfl
    | cons c spaces =>
      refine List.takeWhile_cons_of_neg ?_
      rw [digitValue_of_isSpace (hspaces c List.mem_cons_self), decide_eq_true_iff]
      omega
  rw [List.takeWhile_append_of_pos (List.all_eq_true.mp hall), hnone, List.append_nil]

/-- Neither octal digits nor the white space behind them have the `x` of a hexadecimal prefix. -/
theorem not_x_of_octal {n : Nat} {digits spaces : List UInt8} (hspaces : ∀ c ∈ spaces, isSpace c)
    (h : digitsNumber 8 digits = some n) : ∀ c ∈ digits ++ spaces, ¬ (c = 120 ∨ c = 88) := by
  obtain ⟨hall, -⟩ := Option.ite_none_right_eq_some.mp h
  rintro c hc hx
  have hx' : digitValue c = 33 := by
    obtain rfl | rfl := hx <;> rfl
  obtain hc | hc := List.mem_append.mp hc
  · have := of_decide_eq_true (List.all_eq_true.mp hall c hc)
    omega
  · have := digitValue_of_isSpace (hspaces c hc)
    omega

/-- The base that is found for a number without a sign is the one it is written in. -/
theorem strtolBase_of_unsignedNumber {text spaces : List UInt8} {n : Nat}
    (hspaces : ∀ c ∈ spaces, isSpace c) (h : unsignedNumber text = some n) :
    ∃ base ≤ 36, ∃ digits, strtolBase (text ++ spaces) = (base, digits ++ spaces) ∧
      digitsNumber base digits = some n := by
  -- a 0 in front of octal digits adds nothing
  have hoctal : ∀ {digits}, digitsNumber 8 digits = some n →
      digitsNumber 8 (48 :: digits) = some n := by
    intro digits h
    obtain ⟨hall, h⟩ := Option.ite_none_right_eq_some.mp h
    rw [digitsNumber, if_pos (by rw [List.all_cons, hall]; decide), ← h, List.map_cons,
      List.reverse_cons, Nat.ofDigits_append]
    simp [digitValue]
  have hhex : ∀ {x digit digits}, x = 120 ∨ x = 88 → digitsNumber 16 (digit :: digits) = some n →
      strtolBase (48 :: x :: digit :: digits ++ spaces) = (16, digit :: digits ++ spaces) := by
    intro x digit digits hx h
    obtain ⟨hall, -⟩ := Option.ite_none_right_eq_some.mp h
    rw [List.all_cons, Bool.and_eq_true] at hall
    exact if_pos ⟨hx, of_decide_eq_true hall.1⟩
  unfold unsignedNumber at h
  split at h
  · exact ⟨16, by decide, _, hhex (.inl rfl) h, h⟩
  · exact ⟨16, by decide, _, hhex (.inr rfl) h, h⟩
  · rename_i digits _ _
    refine ⟨8, by decide, 48 :: digits, ?_, hoctal h⟩
    unfold strtolBase
    split
    · rename_i x digit rest heq
      have heq' : digits ++ spaces = x :: digit :: rest := (List.cons.inj heq).2
      refine if_neg fun hx => not_x_of_octal hspaces h x ?_ hx.1
      rw [heq']
      exact List.mem_cons_self
    · rfl
    · rename_i hne
      exact absurd rfl (hne _)
  · cases h
  · rename_i digits _ _ hzero hnil
    refine ⟨10, by decide, text, ?_, h⟩
    cases text with
    | nil => exact absurd rfl hnil
    | cons digit digits =>
      unfold strtolBase
      split
      · rename_i heq
        obtain ⟨rfl, -⟩ := List.cons.inj heq
        exact absurd rfl (hzero _)
      · rename_i heq
        obtain ⟨rfl, -⟩ := List.cons.inj heq
        exact absurd rfl (hzero _)
      · rfl

/-- Behind the white space in front of a text is the text without any, and that behind it. -/
theorem dropWhile_isSpace (text : List UInt8) :
    ∃ spaces, (∀ c ∈ spaces, isSpace c) ∧ text.dropWhile (isSpace ·) = trim text ++ spaces :=
  ⟨_, fun _ hc => List.mem_rtakeWhile_imp hc, List.rdropWhile_append_rtakeWhile.symm⟩

/-- `strtoul` finds the number behind its sign. -/
theorem strtoul_of_sign {text rest spaces : List UInt8} {sign : Int} {n : Nat}
    (hspaces : ∀ c ∈ spaces, isSpace c)
    (hsign : strtolSign (text.dropWhile (isSpace ·)) = (sign, rest ++ spaces))
    (h : unsignedNumber rest = some n) (hroom : n < 2 ^ 64) :
    strtoul text = sign * n % 2 ^ 64 := by
  obtain ⟨base, hle, digits, hbase, hdigits⟩ := strtolBase_of_unsignedNumber hspaces h
  have hlt : ¬ (2 ^ 64 : Int) ≤ n := by omega
  simp only [strtoul, hsign, hbase, takeWhile_of_digitsNumber hle hspaces hdigits,
    foldl_digitValue_of_digitsNumber hdigits, if_neg hlt]

/-- Without a sign the number is a positive one. -/
theorem strtolSign_of_no_sign {digit : UInt8} (digits : List UInt8) (hminus : digit ≠ 45)
    (hplus : digit ≠ 43) : strtolSign (digit :: digits) = (1, digit :: digits) := by
  unfold strtolSign
  split
  · exact absurd (List.cons.inj ‹_›).1 hminus
  · exact absurd (List.cons.inj ‹_›).1 hplus
  · rfl

/-- A number that an `int` can have is read as that. -/
theorem longToInt_strtoul {text : List UInt8} {n : Int} (h : number text = some n)
    (hmin : -2 ^ 31 ≤ n) (hmax : n < 2 ^ 31) : longToInt (strtoul text) = n := by
  -- what has wrapped to an `unsigned long` is read back as the `int`
  have hwrap : ∀ x : Int, -2 ^ 31 ≤ x → x < 2 ^ 31 → longToInt (x % 2 ^ 64) = x := by
    intro x hmin hmax
    rw [longToInt, Int.bmod_def]
    split <;> omega
  obtain ⟨spaces, hspaces, htext⟩ := dropWhile_isSpace text
  unfold number at h
  split at h
  -- a number with a minus is negated in the `unsigned long`
  · rename_i digits htrim
    obtain ⟨m, hm, rfl⟩ := Option.map_eq_some_iff.mp h
    have hsign : strtolSign (text.dropWhile (isSpace ·)) = (-1, digits ++ spaces) := by
      rw [htext, htrim]
      rfl
    rw [strtoul_of_sign hspaces hsign hm (by omega), Int.neg_one_mul]
    exact hwrap _ hmin hmax
  · rename_i digits htrim
    obtain ⟨m, hm, rfl⟩ := Option.map_eq_some_iff.mp h
    have hsign : strtolSign (text.dropWhile (isSpace ·)) = (1, digits ++ spaces) := by
      rw [htext, htrim]
      rfl
    rw [strtoul_of_sign hspaces hsign hm (by omega), Int.one_mul]
    exact hwrap _ hmin hmax
  · rename_i hminus hplus
    obtain ⟨m, hm, rfl⟩ := Option.map_eq_some_iff.mp h
    have hsign : strtolSign (text.dropWhile (isSpace ·)) = (1, trim text ++ spaces) := by
      rw [htext]
      cases htrim : trim text with
      | nil =>
        rw [htrim] at hm
        cases hm
      | cons digit digits =>
        refine strtolSign_of_no_sign (digits ++ spaces) ?_ ?_
        · rintro rfl
          exact hminus digits htrim
        · rintro rfl
          exact hplus digits htrim
    rw [strtoul_of_sign hspaces hsign hm (by omega), Int.one_mul]
    exact hwrap _ hmin hmax

/-- What is read is a number that an `int` can have. -/
theorem longToInt_range (n : Int) : -2 ^ 31 ≤ longToInt n ∧ longToInt n < 2 ^ 31 := by
  rw [longToInt, Int.bmod_def]
  split <;> omega

/-! ### What a layer mentions, and what it says -/

/-- What texts say of an item of a type. -/
def ItemType.Says (texts : List (List UInt8)) : (type : ItemType) → type.Value → Prop
  | .string, val => texts = [val]
  | .integer, val => ∃ text, texts = [text] ∧ number text = some val
  | .stringCollection, val => texts = val

/-- A layer mentions an item: a file by a text, the command line by its mark. -/
def Layer.Mentions (item : Item) : Layer → Prop
  | .file none => False
  | .file (some doc) => doc item.xpath ≠ []
  | .cmdline c => match item with
    | .procDebug => c.debugSet ≠ 0
    | .procSinglethread => c.singlethreadSet ≠ 0
    | .procFg => c.fgSet ≠ 0
    | _ => False

/-- What a layer that mentions an item says of it. -/
def Layer.Says : (item : Item) → Layer → item.type.Value → Prop
  | item, .file doc, val => ∃ doc' ∈ doc, item.type.Says (doc' item.xpath) val
  | .procDebug, .cmdline c, val => val = c.debug
  | .procSinglethread, .cmdline c, val => val = c.singlethread
  | .procFg, .cmdline c, val => val = c.fg
  | _, .cmdline _, _ => False

instance (item : Item) : DecidablePred (Layer.Mentions item)
  | .file none => inferInstanceAs (Decidable False)
  | .file (some _) => inferInstanceAs (Decidable (¬ _))
  | .cmdline _ => by
    cases item <;> simp only [Layer.Mentions] <;> infer_instance

/-- The last layer that mentions an item. -/
def lastMentioning (item : Item) (layers : List Layer) : Option Layer :=
  layers.reverse.find? fun l => l.Mentions item

/-- A value is in force: the last layer that mentions the item says it, or it is the default and
    none does. -/
def InForce (item : Item) (layers : List Layer) (val : item.type.Value) : Prop :=
  match lastMentioning item layers with
  | some l => l.Says item val
  | none => val = item.default

/-- What a layer has for an item, mentioned or not. -/
def Layer.get (item : Item) (l : Layer) : Option item.type.Value := l.data.bind (· item)

/-- A reader finds the topmost layer that has the item, and the defaults have every item. -/
theorem read_dataStack (item : Item) (layers : List Layer) :
    read item (dataStack layers) =
      .ok ((layers.reverse.findSome? (·.get item)).getD item.default) := by
  have hfind : (dataStack layers).reverse.findSome? (fun data => data item) =
      some ((layers.reverse.findSome? (·.get item)).getD item.default) := by
    rw [dataStack, List.reverse_cons, List.findSome?_append, ← List.filterMap_reverse,
      List.findSome?_filterMap]
    show (layers.reverse.findSome? (·.get item)).or (some item.default) = _
    cases layers.reverse.findSome? (·.get item) <;> rfl
  rw [read, hfind]

/-! ### Strings and integers -/

/-- The texts of a string or an integer can be loaded as they are: there is one, and that of an
    integer is a number that an `int` can have. -/
def ItemType.Clear (texts : List (List UInt8)) : ItemType → Prop
  | .string => ∃ text, texts = [text]
  | .integer => ∃ text n, texts = [text] ∧ number text = some n ∧ -2 ^ 31 ≤ n ∧ n < 2 ^ 31
  | .stringCollection => True

/-- What a layer has of an item can be loaded as it is. -/
def Layer.Clear (item : Item) : Layer → Prop
  | .file doc => ∀ doc' ∈ doc, item.type.Clear (doc' item.xpath)
  | .cmdline _ => True

/-- A string or an integer that is loaded is what the texts say exactly if they are clear. Where
    nothing is loaded they say nothing. -/
theorem ItemType.says_iff_clear {type : ItemType} (h : type ≠ .stringCollection) (xpath : String)
    (doc : Document) :
    (∀ val, type.load xpath doc = some val → (type.Says (doc xpath) val ↔ type.Clear (doc xpath))) ∧
      (type.load xpath doc = none →
        ¬ type.Clear (doc xpath) ∧ ∀ val, ¬ type.Says (doc xpath) val) := by
  cases type with
  | stringCollection => exact absurd rfl h
  | string =>
    simp only [load, xpathGet, Says, Clear]
    cases doc xpath with
    | nil => simp
    | cons text texts => cases texts <;> simp
  | integer =>
    simp only [load, xpathGet, Says, Clear]
    cases doc xpath with
    | nil => simp
    | cons text texts =>
      cases texts with
      | cons text' texts => simp
      | nil =>
        refine ⟨fun val hval => ?_, fun hnone => (by cases hnone)⟩
        obtain rfl := Option.some.inj hval
        constructor
        -- a number that is what has been read is one of an `int`
        · rintro ⟨text', htext, hnumber⟩
          exact ⟨text', _, htext, hnumber, longToInt_range _⟩
        · rintro ⟨text', n, htext, hnumber, hmin, hmax⟩
          obtain rfl := List.singleton_inj.mp htext
          exact ⟨_, rfl, hnumber.trans (congrArg some (longToInt_strtoul hnumber hmin hmax).symm)⟩

/-- A layer that does not mention a string or an integer does not have it. -/
theorem Layer.get_of_not_mentions {item : Item} (htype : item.type ≠ .stringCollection)
    {l : Layer} (h : ¬ l.Mentions item) : l.get item = none := by
  cases l with
  -- the command line has the three flags, and nothing else
  | cmdline c =>
    cases item with
    | procDebug => exact if_neg h
    | procSinglethread => exact if_neg h
    | procFg => exact if_neg h
    | _ => rfl
  | file doc =>
    cases doc with
    | none => rfl
    | some doc =>
      -- there is no node at the path
      have hempty : doc item.xpath = [] := not_not.mp h
      show item.type.load item.xpath doc = none
      generalize item.type = type at htype ⊢
      cases type with
      | stringCollection => exact absurd rfl htype
      | string => simp only [ItemType.load, xpathGet, hempty]
      | integer => simp only [ItemType.load, xpathGet, hempty, Option.map_none]

/-- What a layer that mentions a string or an integer has of it is what it says exactly if it is
    clear, and if it has nothing it says nothing. -/
theorem Layer.says_iff_clear {item : Item} (htype : item.type ≠ .stringCollection) {l : Layer}
    (h : l.Mentions item) :
    (∀ val, l.get item = some val → (l.Says item val ↔ l.Clear item)) ∧
      (l.get item = none → ¬ l.Clear item ∧ ∀ val, ¬ l.Says item val) := by
  cases l with
  | cmdline c =>
    cases item with
    -- a flag that is given is loaded as it is
    | procDebug =>
      have hget : Layer.get .procDebug (.cmdline c) = some c.debug := if_pos h
      rw [hget]
      exact ⟨fun val hval => iff_of_true (Option.some.inj hval).symm trivial,
        fun hnone => (by cases hnone)⟩
    | procSinglethread =>
      have hget : Layer.get .procSinglethread (.cmdline c) = some c.singlethread := if_pos h
      rw [hget]
      exact ⟨fun val hval => iff_of_true (Option.some.inj hval).symm trivial,
        fun hnone => (by cases hnone)⟩
    | procFg =>
      have hget : Layer.get .procFg (.cmdline c) = some c.fg := if_pos h
      rw [hget]
      exact ⟨fun val hval => iff_of_true (Option.some.inj hval).symm trivial,
        fun hnone => (by cases hnone)⟩
    | _ => exact absurd h not_false
  | file doc =>
    cases doc with
    | none => exact absurd h not_false
    | some doc =>
      simp only [Layer.Says, Layer.Clear, Option.mem_some_iff, exists_eq_left', forall_eq']
      exact ItemType.says_iff_clear htype item.xpath doc

/-- A reader gives the value of a string or an integer that is in force exactly if the last layer
    that mentions it is clear. -/
theorem read_inForce_iff_clear {item : Item} (htype : item.type ≠ .stringCollection)
    (layers : List Layer) :
    (∃ val, read item (dataStack layers) = .ok val ∧ InForce item layers val) ↔
      ∀ l ∈ lastMentioning item layers, l.Clear item := by
  simp only [read_dataStack, Except.ok.injEq, exists_eq_left', InForce, lastMentioning]
  induction layers.reverse with
  | nil => exact iff_of_true rfl fun l hl => (by cases hl)
  | cons l layers ih =>
    by_cases hmentions : l.Mentions item
    · obtain ⟨hsome, hnone⟩ := Layer.says_iff_clear htype hmentions
      have hfind : (l :: layers).find? (fun l => decide (l.Mentions item)) = some l :=
        List.find?_cons_of_pos (decide_eq_true hmentions)
      rw [hfind, List.findSome?_cons]
      simp only [Option.mem_some_iff, forall_eq']
      cases hget : l.get item with
      | some val => exact hsome val hget
      | none => exact iff_of_false ((hnone hget).2 _) (hnone hget).1
    -- the search goes on behind a layer that does not have the item
    · have hfind : (l :: layers).find? (fun l => decide (l.Mentions item)) =
          layers.find? fun l => decide (l.Mentions item) :=
        List.find?_cons_of_neg (mt of_decide_eq_true hmentions)
      rw [hfind, List.findSome?_cons, Layer.get_of_not_mentions htype hmentions]
      exact ih

/-! ### Collections -/

/-- The document of a file that can be read. -/
def Layer.doc : Layer → Option Document
  | .file doc => doc
  | .cmdline _ => none

/-- The documents of the files that can be read, in order. -/
def docs (layers : List Layer) : List Document := layers.filterMap Layer.doc

/-- No file mentions the item, or the last file that can be read does. -/
def LastMentions (item : Item) (layers : List Layer) : Prop :=
  (∀ doc ∈ docs layers, doc item.xpath = []) ∨
    ∃ doc, (docs layers).getLast? = some doc ∧ doc item.xpath ≠ []

/-- The empty value of a type. -/
def ItemType.blank : (type : ItemType) → type.Value
  | .string => []
  | .integer => (0 : Int)
  | .stringCollection => []

/-- By default there is nothing in a collection. -/
theorem Item.default_eq_blank {item : Item} (h : item.type = .stringCollection) :
    item.default = item.type.blank := by
  cases item <;> first | rfl | cases h

/-- The command line has no collection, and mentions none. -/
theorem Layer.cmdline_of_stringCollection {item : Item} (h : item.type = .stringCollection)
    (c : Cmdline) : Layer.get item (.cmdline c) = none ∧ ¬ Layer.Mentions item (.cmdline c) := by
  cases item <;> first | exact ⟨rfl, not_false⟩ | cases h

/-- The texts that a document has for a collection, if it has any. -/
def ItemType.collected (xpath : String) (doc : Document) : (type : ItemType) → Option type.Value
  | .stringCollection => if doc xpath = [] then none else some (doc xpath)
  | .string | .integer => none

/-- A document says of a collection the texts that it has. -/
theorem ItemType.exists_collected {type : ItemType} (h : type = .stringCollection) {xpath : String}
    {doc : Document} (hne : doc xpath ≠ []) :
    ∃ val, type.collected xpath doc = some val ∧
      ∀ val', type.Says (doc xpath) val' ↔ val' = val := by
  subst h
  exact ⟨doc xpath, if_neg hne, fun val' => eq_comm⟩

/-- Nothing is collected from no texts. -/
theorem ItemType.collected_of_eq_nil {type : ItemType} {xpath : String} {doc : Document}
    (h : doc xpath = []) : type.collected xpath doc = none := by
  cases type with
  | stringCollection => exact if_pos h
  | string => rfl
  | integer => rfl

/-- A collection is read from the topmost document. -/
theorem findSome?_get {item : Item} (h : item.type = .stringCollection) (layers : List Layer) :
    layers.findSome? (·.get item) =
      (layers.filterMap Layer.doc).head?.bind fun doc => item.type.load item.xpath doc := by
  induction layers with
  | nil => rfl
  | cons l layers ih =>
    cases l with
    | cmdline c =>
      rw [List.findSome?_cons, (Layer.cmdline_of_stringCollection h c).1]
      exact ih
    | file doc =>
      cases doc with
      | none => exact ih
      | some doc =>
        have hget : Layer.get item (.file (some doc)) = item.type.load item.xpath doc := rfl
        -- a list of hosts is always loaded, if only as an empty one
        have hload : ∃ val, item.type.load item.xpath doc = some val := by
          generalize item.type = type at h ⊢
          subst h
          exact ⟨_, rfl⟩
        obtain ⟨val, hval⟩ := hload
        rw [List.findSome?_cons, hget, hval]
        exact hval.symm

/-- The value of a collection that is in force is that of the topmost document that has texts for
    it. -/
theorem says_iff_eq_collected {item : Item} (h : item.type = .stringCollection)
    (layers : List Layer) (val : item.type.Value) :
    (match layers.find? fun l => decide (l.Mentions item) with
      | some l => l.Says item val
      | none => val = item.default) ↔
      val = ((layers.filterMap Layer.doc).findSome? fun doc =>
        item.type.collected item.xpath doc).getD item.type.blank := by
  induction layers with
  | nil => exact Eq.congr_right (Item.default_eq_blank h)
  | cons l layers ih =>
    by_cases hmentions : l.Mentions item
    · have hfind : (l :: layers).find? (fun l => decide (l.Mentions item)) = some l :=
        List.find?_cons_of_pos (decide_eq_true hmentions)
      rw [hfind]
      cases l with
      | cmdline c => exact absurd hmentions (Layer.cmdline_of_stringCollection h c).2
      | file doc =>
        cases doc with
        | none => exact absurd hmentions not_false
        | some doc =>
          obtain ⟨texts, hcollected, hsays⟩ := ItemType.exists_collected h hmentions
          rw [List.filterMap_cons_some (show (Layer.file (some doc)).doc = some doc from rfl),
            List.findSome?_cons, hcollected]
          simp only [Layer.Says, Option.mem_some_iff, exists_eq_left', Option.getD_some]
          exact hsays val
    · have hfind : (l :: layers).find? (fun l => decide (l.Mentions item)) =
          layers.find? fun l => decide (l.Mentions item) :=
        List.find?_cons_of_neg (mt of_decide_eq_true hmentions)
      rw [hfind, ih]
      cases l with
      | cmdline c => rfl
      | file doc =>
        cases doc with
        | none => rfl
        | some doc =>
          -- a document without texts is passed over
          rw [List.filterMap_cons_some (show (Layer.file (some doc)).doc = some doc from rfl),
            List.findSome?_cons, ItemType.collected_of_eq_nil (not_not.mp hmentions)]

/-- What is loaded of a collection from the topmost document is what is in force exactly if that
    has texts for the collection, or none does. -/
theorem ItemType.load_getD_eq_collected_getD_iff {type : ItemType} (h : type = .stringCollection)
    (xpath : String) (ds : List Document) :
    (ds.head?.bind fun doc => type.load xpath doc).getD type.blank =
        (ds.findSome? fun doc => type.collected xpath doc).getD type.blank ↔
      (∀ doc ∈ ds, doc xpath = []) ∨ ∃ doc, ds.head? = some doc ∧ doc xpath ≠ [] := by
  subst h
  have hload : (ds.head?.bind fun doc => some (doc xpath)) = ds.head?.map fun doc => doc xpath := by
    cases ds <;> rfl
  show (ds.head?.bind fun doc => some (doc xpath)).getD [] = _ ↔ _
  rw [hload, eq_comm]
  exact List.findSome?_getD_eq_head?_getD_iff _ _

/-- A reader gives the value of a collection that is in force exactly if no file mentions it, or the
    last file that can be read does. -/
theorem read_inForce_iff_lastMentions {item : Item} (h : item.type = .stringCollection)
    (layers : List Layer) :
    (∃ val, read item (dataStack layers) = .ok val ∧ InForce item layers val) ↔
      LastMentions item layers := by
  simp only [read_dataStack, Except.ok.injEq, exists_eq_left', InForce, lastMentioning]
  rw [says_iff_eq_collected h, findSome?_get h, Item.default_eq_blank h,
    ItemType.load_getD_eq_collected_getD_iff h, List.filterMap_reverse, List.head?_reverse]
  simp only [List.mem_reverse]
  rfl

/-! ### Every item -/

/-- The layers can be read as they are meant: the last one that mentions a string or an integer is
    clear, and the last file that can be read mentions a collection if any does. -/
def Right (item : Item) (layers : List Layer) : Prop :=
  if item.type = .stringCollection then LastMentions item layers
  else ∀ l ∈ lastMentioning item layers, l.Clear item

/-- A reader gives the value in force exactly if the layers are right. -/
theorem read_inForce_iff (item : Item) (layers : List Layer) :
    (∃ val, read item (dataStack layers) = .ok val ∧ InForce item layers val) ↔
      Right item layers := by
  unfold Right
  split
  · exact read_inForce_iff_lastMentions (by assumption) layers
  · exact read_inForce_iff_clear (by assumption) layers

/-- A document with texts in one place only. -/
def Document.only (place : String) (texts : List (List UInt8)) : Document :=
  fun xpath => if xpath = place then texts else []

/-- A file with a host, one with an alias only, and the command line. -/
def aliasBehindHost : List Layer :=
  [.file (some (.only "/config/indexnode/host/text()" [ascii "fs2"])),
   .file (some (.only "/config/alias/text()" [ascii "me"])),
   .cmdline ⟨0, 0, 0, 0, 0, 0⟩]

/-- The file that does not mention the hosts leaves none of them. -/
theorem read_indexnodeHosts_not_inForce :
    InForce .indexnodeHosts aliasBehindHost [ascii "fs2"] ∧
      ¬ ∃ val, read .indexnodeHosts (dataStack aliasBehindHost) = .ok val ∧
        InForce .indexnodeHosts aliasBehindHost val := by
  have hread : read .indexnodeHosts (dataStack aliasBehindHost) = .ok [] := rfl
  have hforce : ∀ val : List (List UInt8), InForce .indexnodeHosts aliasBehindHost val →
      val = [ascii "fs2"] := by
    rintro val ⟨doc, hdoc, hval⟩
    obtain rfl := Option.some.inj hdoc
    exact hval.symm
  refine ⟨⟨_, rfl, rfl⟩, ?_⟩
  rintro ⟨val, hval, hin⟩
  rw [hforce val hin, hread] at hval
  exact absurd (Except.ok.inj hval) (by simp)

end Fsfuse.Native.Config
