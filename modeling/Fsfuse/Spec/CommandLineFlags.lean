import Fsfuse.Native.CommandLine
import Fsfuse.Spec.ConfigLayers

/-!
# Flags of the command line

A flag on the command line is meant to set its item to 1, and an item whose flag is not given
to stay what the files make it. To debug is to stay in the foreground as well.

The manager takes the flag for a single thread before the one for the foreground, and is
called with them in the other order. The two items come out right only if both flags are given
or neither is, or if the files have set both items to 1 already.
-/

namespace Fsfuse.Native.Config

/-! ### What is given -/

/-- An option is given, by its letter or by its name. -/
def ArgVector.Gives (argv : ArgVector) (c : Char) (name : String) : Prop :=
  .short c ∈ argv.options ∨ .long name ∈ argv.options

instance (argv : ArgVector) (c : Char) (name : String) : Decidable (argv.Gives c name) :=
  inferInstanceAs (Decidable (_ ∨ _))

/-- The flags are what the items are after the command line, over what they were before. -/
structure FlagsReach (argv : ArgVector) (before after : List Data) : Prop where
  fg : read .procFg after =
    if argv.Gives 'f' "foreground" ∨ argv.Gives 'd' "debug" then .ok (1 : Int)
    else read .procFg before
  singlethread : read .procSinglethread after =
    if argv.Gives 's' "singlethreaded" then .ok (1 : Int) else read .procSinglethread before
  debug : read .procDebug after =
    if argv.Gives 'd' "debug" then .ok (1 : Int) else read .procDebug before

/-! ### What is reported -/

/-- A long option is found exactly if it is in the table. -/
theorem lookup_longOptions_eq_some_iff {name : String} {c : Char} :
    longOptions.lookup name = some c ↔ (name, c) ∈ longOptions := by
  constructor
  · intro h
    obtain ⟨_, _, heq, -⟩ := List.lookup_eq_some_iff.mp h
    rw [heq]
    exact List.mem_append_right _ List.mem_cons_self
  · have hlookup : ∀ p ∈ longOptions, longOptions.lookup p.1 = some p.2 := by decide
    exact hlookup (name, c)

/-- A letter is reported of its short option and of the long options it is the letter of. -/
theorem getoptLong_eq_iff {c : Char} (hc : c ≠ '?') (o : Opt) :
    getoptLong o = c ↔
      (c ≠ ':' ∧ c ∈ shortOptions.toList) ∧ o = .short c ∨
        ∃ name, (name, c) ∈ longOptions ∧ o = .long name := by
  cases o with
  -- a letter is reported as it is if it is an option's, and as `?` otherwise
  | short d =>
    show (if d ≠ ':' ∧ d ∈ shortOptions.toList then d else '?') = c ↔ _
    split
    · rename_i hd
      constructor
      · intro h
        subst h
        exact .inl ⟨hd, rfl⟩
      · rintro (⟨-, h⟩ | ⟨_, -, h⟩) <;> cases h
        rfl
    · rename_i hd
      constructor
      · intro h
        exact absurd h.symm hc
      · rintro (⟨hc, h⟩ | ⟨_, -, h⟩) <;> cases h
        exact absurd hc hd
  -- a name is reported as the letter it stands for
  | long name =>
    show (longOptions.lookup name).getD '?' = c ↔ _
    simp only [← lookup_longOptions_eq_some_iff, reduceCtorEq, and_false, false_or,
      Opt.long.injEq, exists_eq_right']
    cases longOptions.lookup name with
    | none => simp [Ne.symm hc]
    | some d => simp
  | malformed => simp [getoptLong, Ne.symm hc]

/-- The letter of a long option is reported exactly if the option is given. -/
theorem mem_map_getoptLong_iff {name : String} {c : Char} (h : (name, c) ∈ longOptions)
    (argv : ArgVector) : c ∈ argv.options.map getoptLong ↔ argv.Gives c name := by
  have hshort : ∀ p ∈ longOptions, p.2 ≠ '?' ∧ p.2 ≠ ':' ∧ p.2 ∈ shortOptions.toList := by decide
  have hinj : ∀ p ∈ longOptions, ∀ q ∈ longOptions, p.2 = q.2 → p.1 = q.1 := by decide
  obtain ⟨hc, hshort⟩ := hshort _ h
  simp only [List.mem_map, getoptLong_eq_iff hc, ArgVector.Gives]
  constructor
  · rintro ⟨o, ho, ⟨-, rfl⟩ | ⟨other, hother, rfl⟩⟩
    · exact .inl ho
    · cases (hinj _ hother _ h rfl : other = name)
      exact .inr ho
  · rintro (ho | ho)
    · exact ⟨_, ho, .inl ⟨hshort, rfl⟩⟩
    · exact ⟨_, ho, .inr ⟨name, h, rfl⟩⟩

/-- No long option is reported as `p`. -/
theorem p_mem_map_getoptLong_iff (argv : ArgVector) :
    'p' ∈ argv.options.map getoptLong ↔ .short 'p' ∈ argv.options := by
  have hlong : ∀ p ∈ longOptions, p.2 ≠ 'p' := by decide
  have hshort : 'p' ≠ ':' ∧ 'p' ∈ shortOptions.toList := by decide
  simp only [List.mem_map, getoptLong_eq_iff (show 'p' ≠ '?' by decide)]
  constructor
  · rintro ⟨o, ho, ⟨-, rfl⟩ | ⟨name, hname, -⟩⟩
    · exact ho
    · exact absurd rfl (hlong _ hname)
  · intro ho
    exact ⟨_, ho, .inl ⟨hshort, rfl⟩⟩

/-- The letters that can be reported. -/
def Reported (c : Char) : Prop := c = '?' ∨ c ≠ ':' ∧ c ∈ shortOptions.toList

/-- `getopt_long` reports none but the characters of the options, and `?`. -/
theorem reported_getoptLong (o : Opt) : Reported (getoptLong o) := by
  by_cases hc : getoptLong o = '?'
  · exact .inl hc
  · obtain ⟨h, -⟩ | ⟨name, hname, -⟩ := (getoptLong_eq_iff hc o).mp rfl
    · exact .inr h
    · have hshort : ∀ p ∈ longOptions, p.2 ≠ ':' ∧ p.2 ∈ shortOptions.toList := by decide
      exact .inr (hshort _ hname)

/-! ### The loop -/

/-- The switch has a case for whatever can be reported but `p`. -/
theorem exists_parseOption_iff (l : Locals) {c : Char} (hc : Reported c) :
    (∃ l', l.parseOption c = .ok l') ↔ c ≠ 'p' := by
  rcases hc with rfl | ⟨hcolon, hmem⟩
  · simp [Locals.parseOption]
  · simp only [shortOptions, String.reduceToList, List.mem_cons, List.not_mem_nil, or_false]
      at hmem
    rcases hmem with rfl | rfl | rfl | rfl | rfl | rfl | rfl | rfl | rfl | rfl | rfl | rfl <;>
      simp [Locals.parseOption] at hcolon ⊢

/-- The options are parsed exactly if the port is not among them. -/
theorem exists_foldlM_parseOption_iff {cs : List Char} (hcs : ∀ c ∈ cs, Reported c)
    (l : Locals) : (∃ l', cs.foldlM Locals.parseOption l = .ok l') ↔ 'p' ∉ cs := by
  induction cs generalizing l with
  | nil => exact ⟨fun _ => List.not_mem_nil, fun _ => ⟨l, rfl⟩⟩
  | cons c cs ih =>
    have hc := exists_parseOption_iff l (hcs c List.mem_cons_self)
    have ih := ih fun d hd => hcs d (List.mem_cons_of_mem _ hd)
    simp only [List.foldlM_cons, Except.do_eq_ok_iff, List.mem_cons, not_or]
    constructor
    · rintro ⟨l'', l', hl', hrest⟩
      exact ⟨(hc.mp ⟨l', hl'⟩).symm, (ih l').mp ⟨l'', hrest⟩⟩
    · rintro ⟨hp, hrest⟩
      obtain ⟨l', hl'⟩ := hc.mpr (Ne.symm hp)
      obtain ⟨l'', hl''⟩ := (ih l').mpr hrest
      exact ⟨l'', l', hl', hl''⟩

/-- What a flag is passed as makes of its item. -/
def present (set val : Int) : Option Int := if set ≠ 0 then some val else none

/-- A flag that is set is present. -/
@[simp] theorem present_one (val : Int) : present 1 val = some val := rfl

/-- The locals after some letters. -/
structure Parsed (cs : List Char) (l : Locals) : Prop where
  debug : present l.procDebugSet l.procDebug = if 'd' ∈ cs then some 1 else none
  fg : present l.procFgSet l.procFg = if 'f' ∈ cs ∨ 'd' ∈ cs then some 1 else none
  singlethread : present l.procSinglethreadSet l.procSinglethread =
    if 's' ∈ cs then some 1 else none

/-- Before the first option nothing has been parsed. -/
theorem Parsed.init (debug fg singlethread : Int) :
    Parsed [] (.init debug fg singlethread) := by
  constructor <;> rfl

/-- One option. -/
theorem Parsed.parseOption {cs : List Char} {l l' : Locals} {c : Char} (h : Parsed cs l)
    (hc : l.parseOption c = .ok l') : Parsed (cs ++ [c]) l' := by
  obtain ⟨hdebug, hfg, hsinglethread⟩ := h
  unfold Locals.parseOption at hc
  split at hc <;> cases hc <;> constructor <;> simp [hdebug, hfg, hsinglethread]

/-- The loop, over what it had before. -/
theorem Parsed.foldlM_parseOption {cs done : List Char} {l l' : Locals} (h : Parsed done l)
    (hrun : cs.foldlM Locals.parseOption l = .ok l') : Parsed (done ++ cs) l' := by
  induction cs generalizing done l with
  | nil =>
    cases hrun
    rw [List.append_nil]
    exact h
  | cons c cs ih =>
    rw [List.foldlM_cons, Except.do_eq_ok_iff] at hrun
    obtain ⟨m, hm, hrest⟩ := hrun
    have hall := ih (h.parseOption hm) hrest
    rwa [List.append_assoc, List.singleton_append] at hall

/-! ### The layer -/

/-- The layer of the command line is read first, and the files are read of what it does not
    have. -/
theorem read_dataStack_cmdline {item : Item} {c : Cmdline} {given : Prop} [Decidable given]
    {val : item.type.Value} (h : c.data item = if given then some val else none)
    (layers : List Layer) :
    read item (dataStack (layers ++ [.cmdline c])) =
      if given then .ok val else read item (dataStack layers) := by
  have hget : (Layer.cmdline c).get item = if given then some val else none := h
  simp only [read_dataStack, List.reverse_append, List.reverse_singleton, List.singleton_append,
    List.findSome?_cons, hget]
  by_cases hgiven : given
  · simp [hgiven]
  · simp [hgiven]

/-- What the layer has: the foreground and the single thread by each other's flags. -/
theorem Parsed.data_addFromCmdline {argv : ArgVector} {l : Locals}
    (h : Parsed (argv.options.map getoptLong) l) :
    l.addFromCmdline.data .procDebug =
        (if argv.Gives 'd' "debug" then some (1 : Int) else none) ∧
      l.addFromCmdline.data .procSinglethread =
        (if argv.Gives 'f' "foreground" ∨ argv.Gives 'd' "debug" then some (1 : Int)
          else none) ∧
      l.addFromCmdline.data .procFg =
        (if argv.Gives 's' "singlethreaded" then some (1 : Int) else none) := by
  have hd := mem_map_getoptLong_iff (show ("debug", 'd') ∈ longOptions by decide) argv
  have hf := mem_map_getoptLong_iff (show ("foreground", 'f') ∈ longOptions by decide) argv
  have hs := mem_map_getoptLong_iff (show ("singlethreaded", 's') ∈ longOptions by decide) argv
  obtain ⟨hdebug, hfg, hsinglethread⟩ := h
  simp only [hd] at hdebug
  simp only [hf, hd] at hfg
  simp only [hs] at hsinglethread
  -- the call has the foreground second, which is the single thread's place
  exact ⟨hdebug, hfg, hsinglethread⟩

/-! ### The settings -/

/-- Two choices between the same values are the same exactly if their conditions are, or the
    values. -/
theorem ite_eq_ite_left_iff {α : Type*} {p q : Prop} [Decidable p] [Decidable q] {a b : α} :
    (if p then a else b) = (if q then a else b) ↔ (p ↔ q) ∨ b = a := by
  by_cases hp : p <;> by_cases hq : q <;> simp [hp, hq, eq_comm]

/-- After the call the flags have reached their items exactly if the two that are confused
    agree, or the items were 1 before. -/
theorem Parsed.flagsReach_iff {argv : ArgVector} {l : Locals}
    (h : Parsed (argv.options.map getoptLong) l) (layers : List Layer) :
    FlagsReach argv (dataStack layers) (dataStack (layers ++ [.cmdline l.addFromCmdline])) ↔
      (argv.Gives 's' "singlethreaded" ↔
          argv.Gives 'f' "foreground" ∨ argv.Gives 'd' "debug") ∨
        read .procFg (dataStack layers) = .ok (1 : Int) ∧
          read .procSinglethread (dataStack layers) = .ok (1 : Int) := by
  obtain ⟨hdebug, hsinglethread, hfg⟩ := h.data_addFromCmdline
  have hdebug := read_dataStack_cmdline hdebug layers
  have hsinglethread := read_dataStack_cmdline hsinglethread layers
  have hfg := read_dataStack_cmdline hfg layers
  constructor
  · rintro ⟨hfg', hsinglethread', -⟩
    rw [hfg] at hfg'
    rw [hsinglethread] at hsinglethread'
    -- the setting is the flag's if the two flags say the same, or if it was set already
    rw [ite_eq_ite_left_iff] at hfg' hsinglethread'
    rcases hfg' with hiff | hfg'
    · exact .inl hiff
    · rcases hsinglethread' with hiff | hsinglethread'
      · exact .inl hiff.symm
      · exact .inr ⟨hfg', hsinglethread'⟩
  · intro hcond
    refine ⟨?_, ?_, hdebug⟩
    · rw [hfg]
      exact ite_eq_ite_left_iff.mpr (hcond.imp id And.left)
    · rw [hsinglethread]
      exact ite_eq_ite_left_iff.mpr (hcond.imp Iff.symm And.right)

/-- The flags reach their items exactly if `-p` is not given, and `-s` is given along with `-f`
    or `-d` or none of them is, or the foreground and the single thread were 1 before. -/
theorem settingsParseCommandLine_flagsReach_iff
    (realpath : List UInt8 → Except (List UInt8) (List UInt8)) (debug fg singlethread : Int)
    (layers : List Layer) (mountpoint : Mountpoint) (argv : ArgVector) :
    (∃ settings, settingsParseCommandLine realpath (.init debug fg singlethread) layers
          mountpoint argv = .ok settings ∧
        FlagsReach argv (dataStack layers) (dataStack settings.layers)) ↔
      .short 'p' ∉ argv.options ∧
        ((argv.Gives 's' "singlethreaded" ↔
            argv.Gives 'f' "foreground" ∨ argv.Gives 'd' "debug") ∨
          read .procFg (dataStack layers) = .ok (1 : Int) ∧
            read .procSinglethread (dataStack layers) = .ok (1 : Int)) := by
  have hreported : ∀ c ∈ argv.options.map getoptLong, Reported c := by
    intro c hc
    obtain ⟨o, -, rfl⟩ := List.mem_map.mp hc
    exact reported_getoptLong o
  have hparses := exists_foldlM_parseOption_iff hreported (.init debug fg singlethread)
  rw [p_mem_map_getoptLong_iff] at hparses
  have hparsed {l : Locals} (hl : (argv.options.map getoptLong).foldlM Locals.parseOption
      (.init debug fg singlethread) = .ok l) : Parsed (argv.options.map getoptLong) l :=
    (Parsed.init debug fg singlethread).foldlM_parseOption hl
  constructor
  · rintro ⟨settings, hrun, hreach⟩
    obtain ⟨l, hl, hsettings⟩ := Except.do_eq_ok_iff.mp hrun
    cases hsettings
    exact ⟨hparses.mp ⟨l, hl⟩, ((hparsed hl).flagsReach_iff layers).mp hreach⟩
  · rintro ⟨hp, hcond⟩
    obtain ⟨l, hl⟩ := hparses.mpr hp
    refine ⟨_, Except.do_eq_ok_iff.mpr ⟨l, hl, rfl⟩, ?_⟩
    exact ((hparsed hl).flagsReach_iff layers).mpr hcond

/-- The arguments of `fsfuse -f fs2 /mnt`. -/
def inForeground : ArgVector := ⟨[.short 'f'], [ascii "fs2", ascii "/mnt"]⟩

/-- Without a configuration file these leave it to go to the background. -/
theorem not_flagsReach_inForeground :
    ¬ ∃ settings, settingsParseCommandLine .ok (.init 0 0 0) [] ⟨none, none, none⟩
          inForeground = .ok settings ∧
        FlagsReach inForeground (dataStack []) (dataStack settings.layers) := by
  rintro ⟨settings, hrun, h⟩
  cases hrun
  have hfg := h.fg
  have hread : read .procFg (dataStack [.cmdline ⟨0, 0, 1, 1, 0, 0⟩]) = .ok (0 : Int) := rfl
  rw [if_pos (by decide)] at hfg
  cases hread.symm.trans hfg

end Fsfuse.Native.Config
