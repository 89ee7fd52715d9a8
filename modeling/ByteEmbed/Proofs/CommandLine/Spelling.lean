import ByteEmbed.CommandLine.Arguments

/-!
# How values are spelled on a command line

A value is given by one or two arguments.  The input stands alone.  Every other value comes
with a flag, long or short, as the next argument, behind an equals sign, or right behind a
short flag.  `Item` lists these spellings and `Items` puts them in a row; a `Line` is such a
row, where `--` may mark the end of the flags and one more input may follow it.

None of this mentions how arguments are read.  What the reader makes of a single argument is
the second half of this module: one equation for each spelling, and `read_eq_ok_cases`, which
says all that an argument can do if reading goes on behind it.
-/

namespace ByteEmbed
namespace CommandLine

/-! ### The grammar -/

/-- A value, and what it is given for. -/
structure Given where
  role : Role
  value : Text

/-- Whether an argument can be a value on its own: it is a single dash, or does not begin
with one. -/
def IsValue (arg : Text) : Prop :=
  arg = ['-'] ∨ arg.head? ≠ some '-'

/-- The short flags of the values that have flags. -/
inductive IsShortFlag : Role → Text → Prop where
  | name : IsShortFlag .name "-n".toList
  | output : IsShortFlag .output "-o".toList

/-- The flags of the values that have flags, short and long. -/
inductive IsFlag : Role → Text → Prop where
  | short {role : Role} {flag : Text} (h : IsShortFlag role flag) : IsFlag role flag
  | longName : IsFlag .name "--name".toList
  | longOutput : IsFlag .output "--output".toList

/-- What marks the end of the flags. -/
def flagsEnd : Text := "--".toList

/-- The ways in which arguments give one value. -/
inductive Item : List Text → Given → Prop where
  | input {value : Text} (hvalue : IsValue value) : Item [value] ⟨.input, value⟩
  | separate {role : Role} {flag value : Text} (hflag : IsFlag role flag)
      (hvalue : IsValue value) : Item [flag, value] ⟨role, value⟩
  | joined {role : Role} {flag : Text} (hflag : IsFlag role flag) (value : Text) :
      Item [flag ++ '=' :: value] ⟨role, value⟩
  | attached {role : Role} {flag value : Text} (hflag : IsShortFlag role flag)
      (hne : value ≠ []) (hhead : value.head? ≠ some '=') :
      Item [flag ++ value] ⟨role, value⟩

/-- Arguments that give one value after the other. -/
inductive Items : List Text → List Given → Prop where
  | nil : Items [] []
  | snoc {args item : List Text} {given : List Given} {last : Given} (h : Items args given)
      (hlast : Item item last) : Items (args ++ item) (given ++ [last])

/-- The lines of the command: items, then the end of the flags, if it is marked, and one
input behind it, if there is one. -/
inductive Line : List Text → List Given → Prop where
  | items {args : List Text} {given : List Given} (h : Items args given) : Line args given
  | ended {args : List Text} {given : List Given} (h : Items args given) :
      Line (args ++ [flagsEnd]) given
  | endedInput {args : List Text} {given : List Given} (h : Items args given) (value : Text) :
      Line (args ++ [flagsEnd, value]) (given ++ [⟨.input, value⟩])

/-! ### The reader, argument by argument -/

theorem ofText_of_isValue {arg : Text} (h : IsValue arg) : Argument.ofText arg = .plain arg := by
  rcases h with rfl | h
  · rfl
  · unfold Argument.ofText
    split
    · simp at h
    · simp at h
    · simp at h
    · rfl

theorem attachedValue?_cases (rest : Text) :
    (attachedValue? rest = none ∧ rest.takeWhile (· != '=') = rest) ∨
      ∃ value, attachedValue? rest = some value ∧
        rest.takeWhile (· != '=') ++ '=' :: value = rest := by
  have hsplit := List.takeWhile_append_dropWhile (p := (· != '=')) (l := rest)
  rw [attachedValue?]
  cases hdrop : rest.dropWhile (· != '=') with
  | nil =>
      rw [hdrop, List.append_nil] at hsplit
      exact .inl ⟨rfl, hsplit⟩
  | cons c value =>
      have hc : c = '=' := by
        have hhead := List.head?_dropWhile_not (· != '=') rest
        rw [hdrop] at hhead
        simpa using hhead
      rw [hdrop, hc] at hsplit
      exact .inr ⟨value, rfl, hsplit⟩

/-- An argument is what it is spelled as. -/
theorem eq_of_ofText (arg : Text) :
    match Argument.ofText arg with
    | .separator => arg = flagsEnd
    | .long flag none => arg = '-' :: '-' :: flag
    | .long flag (some value) => arg = '-' :: '-' :: (flag ++ '=' :: value)
    | .short flag attached => arg = '-' :: flag :: attached
    | .plain value => arg = value ∧ IsValue arg := by
  fun_cases Argument.ofText arg with
  | case1 => rfl
  | case2 rest _ =>
      rcases attachedValue?_cases rest with ⟨hnone, hflag⟩ | ⟨value, hsome, hflag⟩
      · rw [hnone, hflag]
      · rw [hsome]
        dsimp only
        rw [hflag]
  | case3 flag attached _ _ => rfl
  | case4 _ _ _ hshort =>
      refine ⟨rfl, ?_⟩
      by_cases hdash : arg = ['-']
      · exact .inl hdash
      · right
        intro hhead
        obtain ⟨rest, rfl⟩ := List.head?_eq_some_iff.mp hhead
        cases rest with
        | nil => exact hdash rfl
        | cons flag attached => exact hshort flag attached rfl

variable {scan : Scan} {role : Role} {flag value : Text}

theorem read_flag (hflags : scan.flagsEnded = false) (hflag : IsFlag role flag) :
    scan.read flag = scan.hold role none := by
  rw [Scan.read, hflags]
  cases hflag with
  | short h => cases h <;> rfl
  | longName => rfl
  | longOutput => rfl

theorem read_joined (hflags : scan.flagsEnded = false) (hflag : IsFlag role flag) (value : Text) :
    scan.read (flag ++ '=' :: value) =
      scan.settle.bind fun settled => settled.store role value := by
  rw [Scan.read, hflags]
  cases hflag with
  | short h => cases h <;> rfl
  | longName => rfl
  | longOutput => rfl

theorem shortValue?_of_ne (hne : value ≠ []) (hhead : value.head? ≠ some '=') :
    Scan.shortValue? value = some value := by
  unfold Scan.shortValue?
  split
  · contradiction
  · simp at hhead
  · rfl

theorem read_attached (hflags : scan.flagsEnded = false) (hflag : IsShortFlag role flag)
    (hne : value ≠ []) (hhead : value.head? ≠ some '=') :
    scan.read (flag ++ value) =
      scan.settle.bind fun settled => settled.store role value := by
  have hvalue := shortValue?_of_ne hne hhead
  rw [Scan.read, hflags]
  cases hflag with
  | name =>
      show scan.readFlag (Scan.shortValue? value) (.value .name) = _
      rw [hvalue]
      rfl
  | output =>
      show scan.readFlag (Scan.shortValue? value) (.value .output) = _
      rw [hvalue]
      rfl

theorem read_value (hflags : scan.flagsEnded = false) (hvalue : IsValue value) :
    scan.read value = scan.readPlain value := by
  rw [Scan.read, hflags, ofText_of_isValue hvalue]
  rfl

theorem read_flagsEnd (hflags : scan.flagsEnded = false) :
    scan.read flagsEnd = .ok { scan with flagsEnded := true } := by
  rw [Scan.read, hflags]
  rfl

theorem read_of_flagsEnded (hflags : scan.flagsEnded = true) (arg : Text) :
    scan.read arg = scan.readInput arg := by
  rw [Scan.read, hflags]
  rfl

theorem isFlag_of_ofLong? (h : Flag.ofLong? flag = some (.value role)) :
    IsFlag role ('-' :: '-' :: flag) := by
  unfold Flag.ofLong? at h
  split at h
  · next hflag =>
      cases h
      subst hflag
      exact .longName
  · split at h
    · next hflag =>
        cases h
        subst hflag
        exact .longOutput
    · split at h
      · cases h
      · split at h <;> cases h

theorem isShortFlag_of_ofShort? {flag : Char} (h : Flag.ofShort? flag = some (.value role)) :
    IsShortFlag role ['-', flag] := by
  unfold Flag.ofShort? at h
  split at h
  · cases h
    exact .name
  · cases h
    exact .output
  · cases h
  · cases h
  · cases h

/-- A flag leaves its value to be given, or has it attached. -/
theorem readFlag_eq_ok {attached : Option Text} {known : Flag} {next : Scan}
    (h : scan.readFlag attached known = .ok next) :
    ∃ role, known = .value role ∧
      ((attached = none ∧ scan.hold role none = .ok next) ∨
        ∃ value, attached = some value ∧
          (scan.settle.bind fun settled => settled.store role value) = .ok next) := by
  unfold Scan.readFlag at h
  split at h
  · next role =>
      split at h
      · exact ⟨role, rfl, .inl ⟨rfl, h⟩⟩
      · next value => exact ⟨role, rfl, .inr ⟨value, rfl, h⟩⟩
  · next inquiry =>
      rcases hsettle : scan.settle with stop | settled
      · rw [hsettle] at h
        cases h
      · rw [hsettle] at h
        cases h

/-- A long flag is a flag by itself or is joined to its value. -/
theorem readLong_eq_ok {attached : Option Text} {next : Scan}
    (h : scan.readLong flag attached = .ok next) :
    ∃ role, IsFlag role ('-' :: '-' :: flag) ∧
      ((attached = none ∧ scan.hold role none = .ok next) ∨
        ∃ value, attached = some value ∧
          (scan.settle.bind fun settled => settled.store role value) = .ok next) := by
  unfold Scan.readLong at h
  split at h
  · cases h
  · cases h
  · next known hknown _ =>
      obtain ⟨role, rfl, hread⟩ := readFlag_eq_ok h
      exact ⟨role, isFlag_of_ofLong? hknown, hread⟩

/-- A short flag is a flag by itself, is joined to its value, or has it attached. -/
theorem readShort_eq_ok {flag : Char} {attached : Text} {next : Scan}
    (h : scan.readShort flag attached = .ok next) :
    ∃ role, IsShortFlag role ['-', flag] ∧
      ((attached = [] ∧ scan.hold role none = .ok next) ∨
        ∃ value, Item ['-' :: flag :: attached] ⟨role, value⟩ ∧
          (scan.settle.bind fun settled => settled.store role value) = .ok next) := by
  unfold Scan.readShort at h
  split at h
  · cases h
  · next known hknown =>
      obtain ⟨role, rfl, hread⟩ := readFlag_eq_ok h
      have hflag := isShortFlag_of_ofShort? hknown
      refine ⟨role, hflag, ?_⟩
      rcases attached with _ | ⟨c, rest⟩
      · rcases hread with ⟨-, hhold⟩ | ⟨value, hcontra, -⟩
        · exact .inl ⟨rfl, hhold⟩
        · cases hcontra
      · by_cases hc : c = '='
        · subst hc
          rcases hread with ⟨hcontra, -⟩ | ⟨value, hvalue, hstore⟩
          · cases hcontra
          · cases hvalue
            exact .inr ⟨rest, .joined (.short hflag) rest, hstore⟩
        · have hhead : (c :: rest).head? ≠ some '=' := by simpa using hc
          rw [shortValue?_of_ne (List.cons_ne_nil c rest) hhead] at hread
          rcases hread with ⟨hcontra, -⟩ | ⟨value, hvalue, hstore⟩
          · cases hcontra
          · cases hvalue
            exact .inr ⟨_, .attached hflag (List.cons_ne_nil c rest) hhead, hstore⟩

/-- What an argument can be if reading goes on behind it: the end of the flags, a value, or
a flag of a value, which may have the value attached. -/
theorem read_eq_ok_cases {arg : Text} {next : Scan} (hflags : scan.flagsEnded = false)
    (h : scan.read arg = .ok next) :
    (arg = flagsEnd ∧ next = { scan with flagsEnded := true }) ∨
      (IsValue arg ∧ scan.readPlain arg = .ok next) ∨
      ∃ role, (IsFlag role arg ∧ scan.hold role none = .ok next) ∨
        ∃ value, Item [arg] ⟨role, value⟩ ∧
          (scan.settle.bind fun settled => settled.store role value) = .ok next := by
  have harg := eq_of_ofText arg
  rw [Scan.read, hflags, if_neg Bool.false_ne_true] at h
  cases hkind : Argument.ofText arg with
  | separator =>
      rw [hkind] at h harg
      exact .inl ⟨harg, (Except.ok.inj h).symm⟩
  | plain value =>
      rw [hkind] at h harg
      obtain ⟨rfl, hvalue⟩ := harg
      exact .inr (.inl ⟨hvalue, h⟩)
  | long flag attached =>
      rw [hkind] at h harg
      obtain ⟨role, hflag, hread⟩ := readLong_eq_ok h
      refine .inr (.inr ⟨role, ?_⟩)
      rcases hread with ⟨rfl, hhold⟩ | ⟨value, rfl, hstore⟩
      · dsimp only at harg
        rw [harg]
        exact .inl ⟨hflag, hhold⟩
      · dsimp only at harg
        rw [harg]
        exact .inr ⟨value, .joined hflag value, hstore⟩
  | short flag attached =>
      rw [hkind] at h harg
      dsimp only at harg
      subst harg
      obtain ⟨role, hflag, hread⟩ := readShort_eq_ok h
      refine .inr (.inr ⟨role, ?_⟩)
      rcases hread with ⟨rfl, hhold⟩ | ⟨value, hitem, hstore⟩
      · exact .inl ⟨.short hflag, hhold⟩
      · exact .inr ⟨value, hitem, hstore⟩

end CommandLine
end ByteEmbed
