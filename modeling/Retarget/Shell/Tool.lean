import Retarget.Command
import Retarget.Shell.Condition
import Retarget.Shell.Printing

/-!
# Small programs

Each `Tool` is a program that needs nothing but its arguments, its input and
the directory.  `Tool.all` lists them by name.  A tool that meets a file it
cannot use says so and goes on with the others.
-/

namespace Retarget.Shell

/-- What a tool does: it leaves a directory and says something. -/
structure Reply where
  disk : Disk
  output : List UInt8
  errors : List String
  code : Nat

/-- A tool is given its arguments, its input and the directory. -/
abbrev Tool := List String → List UInt8 → Disk → Reply

namespace Tool

/-- A reply that says nothing. -/
def silent (d : Disk) (code : Nat) : Reply :=
  ⟨d, [], [], code⟩

/-- A reply that only complains. -/
def complain (d : Disk) (code : Nat) (lines : List String) : Reply :=
  ⟨d, [], lines, code⟩

/-- A complaint about how a tool was called. -/
def misuse (d : Disk) (code : Nat) (name reason : String) : Reply :=
  complain d code [name ++ ": " ++ reason, "Try '" ++ name ++ " --help' for more information."]

/-- The wording of a fault, without its number. -/
def faultText : Disk.Fault → String
  | .notThere => "No such file or directory"
  | .alreadyThere => "File exists"
  | .notFolder => "Not a directory"
  | .isFolder => "Is a directory"
  | .notText => "Invalid or incomplete multibyte or wide character"
  | .denied => "Permission denied"

/-- A name in quotes. -/
def quote (s : String) : String :=
  if s.toList.contains '\'' then "\"" ++ s ++ "\"" else "'" ++ s ++ "'"

/-- Splits arguments into option letters and operands.  A letter of `valued`
takes the rest of its word or the next word. -/
def options (valued : List Char) : List String → List (Char × String) × List String
  | [] => ([], [])
  | w :: rest =>
    match w.toList with
    | ['-', '-'] => ([], rest)
    | '-' :: c :: cs =>
      let (flags, value) := (c :: cs).span fun x => !valued.contains x
      match value with
      | [] =>
        let (os, xs) := options valued rest
        (flags.map (fun x => (x, "")) ++ os, xs)
      | [v] =>
        match rest with
        | [] => (flags.map (fun x => (x, "")) ++ [(v, "")], [])
        | next :: rest =>
          let (os, xs) := options valued rest
          (flags.map (fun x => (x, "")) ++ (v, next) :: os, xs)
      | v :: more =>
        let (os, xs) := options valued rest
        (flags.map (fun x => (x, "")) ++ (v, String.ofList more) :: os, xs)
    | _ =>
      let (os, xs) := options valued rest
      (os, w :: xs)

/-- Reads options out of `allowed` and hands them with the operands to a
tool. -/
def withOptions (name : String) (allowed valued : List Char)
    (tool : List (Char × String) → Tool) : Tool := fun args input d =>
  let (os, xs) := options valued args
  match os.find? fun o => !(allowed.contains o.1 || valued.contains o.1) with
  | some (c, _) => misuse d 1 name ("invalid option -- '" ++ String.singleton c ++ "'")
  | none => tool os xs input d

/-- The bytes of an operand: a file, or the input where it is `-`. -/
def source (d : Disk) (input : List UInt8) (x : String) : Except Disk.Fault (List UInt8) :=
  if x = "-" then .ok input
  else if x = "/dev/null" then .ok []
  else if x = "" then .error .notThere
  else (d.content (Path.location ⟨x⟩)).map Content.bytes

/-- Treats each operand in turn; the code is 1 if one of them failed. -/
def each (f : Disk → String → Except String Disk) (xs : List String) (d : Disk) : Reply :=
  xs.foldl (fun r x =>
    match f r.disk x with
    | .ok d => { r with disk := d }
    | .error m => { r with errors := r.errors ++ [m], code := 1 }) (silent d 0)

/-- Writes files one after the other. -/
def cat : Tool := withOptions "cat" [] [] fun _ xs input d =>
  (if xs = [] then ["-"] else xs).foldl (fun r x =>
    match source d input x with
    | .ok bs => { r with output := r.output ++ bs }
    | .error f =>
      { r with errors := r.errors ++ ["cat: " ++ x ++ ": " ++ faultText f], code := 1 })
    (silent d 0)

/-- Makes the files that are not there, unless told not to. -/
def touch : Tool := withOptions "touch" ['c', 'a', 'm'] [] fun os xs _ d =>
  if xs = [] then misuse d 1 "touch" "missing file operand"
  else each (fun d x =>
    let l := Path.location ⟨x⟩
    if (d.at? l).isSome then .ok d
    else if os.any (·.1 = 'c') then .ok d
    else match d.writeText l "" with
      | .ok e => .ok e
      | .error f => .error ("touch: cannot touch " ++ quote x ++ ": " ++ faultText f)) xs d

/-- Everything below a list of names, and what stands there itself, gone. -/
def removeTree (d : Disk) (names : List String) : Disk :=
  ⟨List.filter (fun e => !names.isPrefixOf e.1) d.entries⟩

/-- Removes files, and folders if told so. -/
def rm : Tool := withOptions "rm" ['f', 'r', 'R', 'v'] [] fun os xs _ d =>
  let force := os.any (·.1 = 'f')
  let deep := os.any fun o => o.1 = 'r' || o.1 = 'R'
  if xs = [] then if force then silent d 0 else misuse d 1 "rm" "missing operand"
  else each (fun d x =>
    let l := Path.location ⟨x⟩
    let bad (f : Disk.Fault) : Except String Disk :=
      .error ("rm: cannot remove " ++ quote x ++ ": " ++ faultText f)
    match d.find l with
    | .error f => if force then .ok d else bad f
    | .ok names =>
      match d.entry? names with
      | none => if force then .ok d else bad .notThere
      | some .folder => if deep then .ok (removeTree d names) else bad .isFolder
      | some (.file _) => (d.removeFile l).mapError fun f => faultText f) xs d

/-- Where a file goes that is put at a path: below it, if it is a folder. -/
def destination (d : Disk) (x target : String) : Location :=
  let l := Path.location ⟨target⟩
  if d.isFolder l then l ++ (Path.location ⟨x⟩).getLast?.toList else l

/-- Puts files somewhere else with the given operation on files. -/
def relocate (name : String)
    (op : Disk → Location → Location → Except Disk.Fault Disk) : Tool :=
  withOptions name ['f'] [] fun _ xs _ d =>
    match xs.reverse with
    | [] => misuse d 1 name "missing file operand"
    | [x] => misuse d 1 name ("missing destination file operand after " ++ quote x)
    | target :: rest =>
      each (fun d x =>
        let l := Path.location ⟨x⟩
        let place := destination d x target
        match d.at? l with
        | none => .error (name ++ ": cannot stat " ++ quote x ++ ": " ++ faultText .notThere)
        | some _ =>
          match op d l place with
          | .ok e => .ok e
          | .error f =>
            .error (name ++ ": cannot create regular file " ++ quote place.path.text ++ ": " ++
              faultText f)) rest.reverse d

/-- Moves files. -/
def mv : Tool :=
  relocate "mv" Disk.move

/-- Copies files. -/
def cp : Tool :=
  relocate "cp" fun d a b => do d.writeContent b (← d.content a)

/-- Makes folders, and those above them if told so. -/
def mkdir : Tool := withOptions "mkdir" ['p'] [] fun os xs _ d =>
  if xs = [] then misuse d 1 "mkdir" "missing operand"
  else each (fun d x =>
    let l := Path.location ⟨x⟩
    let made := if os.any (·.1 = 'p') then d.makeFolders l else d.makeFolder l
    made.mapError fun f =>
      "mkdir: cannot create directory " ++ quote x ++ ": " ++ faultText f) xs d

/-- The bytes of lines. -/
def lines (xs : List String) : List UInt8 :=
  xs.flatMap fun x => Text.encode x ++ [10]

/-- The names in a folder that a listing shows. -/
def listed (os : List (Char × String)) (d : Disk) (names : List String) : List String :=
  let all := os.any (·.1 = 'a')
  let most := all || os.any (·.1 = 'A')
  (if all then [".", ".."] else []) ++
    ((d.children names).map Prod.fst).filter fun n => most || n.toList.head? ≠ some '.'

/-- Lists files and folders. -/
def ls : Tool := withOptions "ls" ['1', 'a', 'A'] [] fun os xs _ d =>
  let operands := if xs = [] then ["."] else xs.mergeSort (· ≤ ·)
  let found := operands.map fun x => (x, (d.find (Path.location ⟨x⟩)).bind fun names =>
    match d.entry? names with
    | none => .error Disk.Fault.notThere
    | some e => .ok (names, e))
  let errors := found.filterMap fun (x, r) =>
    match r with
    | .error f => some ("ls: cannot access " ++ quote x ++ ": " ++ faultText f)
    | .ok _ => none
  let files := found.filterMap fun (x, r) =>
    match r with
    | .ok (_, .file _) => some x
    | _ => none
  let folders := found.filterMap fun (x, r) =>
    match r with
    | .ok (names, .folder) => some (x, names)
    | _ => none
  let blocks := (if files = [] then [] else [files]) ++ folders.map fun (x, names) =>
    (if operands.length = 1 then [] else [x ++ ":"]) ++ listed os d names
  ⟨d, lines ([""].intercalate blocks), errors, if errors = [] then 0 else 2⟩

/-- Cuts bytes behind each newline. -/
def splitLines (bs : List UInt8) : List (List UInt8) :=
  let (done, open_) := bs.foldl (fun (done, l) b =>
    if b = 10 then ((b :: l).reverse :: done, []) else (done, b :: l)) ([], [])
  (if open_ = [] then done else open_.reverse :: done).reverse

/-- Writes one end of each file; `pick` takes a number of pieces. -/
def ends (name : String) (pick : {α : Type} → Nat → List α → List α) : Tool :=
  fun args input d =>
    let args := match args with
      | a :: rest =>
        match a.toList with
        | '-' :: c :: cs => if c.isDigit then "-n" :: String.ofList (c :: cs) :: rest else args
        | _ => args
      | [] => []
    withOptions name ['q'] ['n', 'c'] (fun os xs input d =>
      let count := (os.filter fun o => o.1 = 'n' || o.1 = 'c').getLast?
      let size := (count.bind fun o => o.2.toNat?).getD 10
      let cut (bs : List UInt8) : List UInt8 :=
        if count.any (·.1 = 'c') then pick size bs else (pick size (splitLines bs)).flatten
      let operands := if xs = [] then ["-"] else xs
      operands.foldl (fun r x =>
        let bytes := if x = "/dev/zero" then .ok (List.replicate size 0) else source d input x
        match bytes with
        | .ok bs =>
          let head := if operands.length = 1 || os.any (·.1 = 'q') then []
            else (if r.output = [] then [] else [10]) ++
              Text.encode ("==> " ++ (if x = "-" then "standard input" else x) ++ " <==\n")
          { r with output := r.output ++ head ++ cut bs }
        | .error f =>
          { r with
            errors := r.errors ++
              [name ++ ": cannot open " ++ quote x ++ " for reading: " ++ faultText f]
            code := 1 }) (silent d 0)) args input d

/-- Writes the beginning of each file. -/
def head : Tool :=
  ends "head" fun n xs => xs.take n

/-- Writes the end of each file. -/
def tail : Tool :=
  ends "tail" fun n xs => xs.drop (xs.length - n)

/-- Whether a byte is blank. -/
def isBlankByte (b : UInt8) : Bool :=
  b = 32 || (9 ≤ b && b ≤ 13)

/-- The number of words in bytes. -/
def countWords (bs : List UInt8) : Nat :=
  (bs.foldl (fun (n, inside) b =>
    if isBlankByte b then (n, false) else (if inside then n else n + 1, true)) (0, false)).1

/-- Counts lines, words and bytes. -/
def wc : Tool := withOptions "wc" ['l', 'w', 'c'] [] fun os xs input d =>
  let wanted (c : Char) : Bool := os = [] || os.any (·.1 = c)
  let counts (bs : List UInt8) : List Nat :=
    (if wanted 'l' then [bs.count 10] else []) ++ (if wanted 'w' then [countWords bs] else []) ++
      (if wanted 'c' then [bs.length] else [])
  let operands := if xs = [] then ["-"] else xs
  let found := operands.map fun x => (x, source d input x)
  let whole := found.flatMap fun (_, r) => r.toOption.getD []
  let columns := (counts []).length
  let width :=
    if columns = 1 && operands.length = 1 then 1
    else max (if operands.contains "-" then 7 else 1) (toString whole.length).length
  let row (ns : List Nat) (x : String) : String :=
    let cells := ns.map fun n =>
      let s := toString n
      String.ofList (List.replicate (width - s.length) ' ') ++ s
    " ".intercalate cells ++ (if xs = [] then "" else " " ++ x)
  let rows := found.filterMap fun (x, r) => r.toOption.map fun bs => row (counts bs) x
  let total := found.foldl (fun ns (_, r) =>
    List.zipWith (· + ·) ns (counts (r.toOption.getD []))) (List.replicate columns 0)
  let errors := found.filterMap fun (x, r) =>
    match r with
    | .error f => some ("wc: " ++ x ++ ": " ++ faultText f)
    | .ok _ => none
  ⟨d, lines (rows ++ if operands.length = 1 then [] else [row total "total"]), errors,
    if errors = [] then 0 else 1⟩

/-- The bytes that a set of characters lists. -/
def byteSet : List UInt8 → List UInt8
  | a :: 45 :: b :: rest =>
    (List.range (b.toNat + 1 - a.toNat)).map (fun i => a + UInt8.ofNat i) ++ byteSet rest
  | a :: rest => a :: byteSet rest
  | [] => []

/-- The bytes that a word lists. -/
def setOfWord (w : String) : List UInt8 :=
  match w with
  | "[:upper:]" => byteSet (Text.encode "A-Z")
  | "[:lower:]" => byteSet (Text.encode "a-z")
  | "[:digit:]" => byteSet (Text.encode "0-9")
  | "[:space:]" => byteSet [9, 45, 13, 32]
  | _ => byteSet (Escape.expand ⟨false, false⟩ w.toList).1

/-- Replaces or drops bytes of the input. -/
def tr : Tool := withOptions "tr" ['d', 's'] [] fun os xs input d =>
  match xs with
  | [] => misuse d 1 "tr" "missing operand"
  | [x] =>
    if os.any (·.1 = 'd') then
      let s := setOfWord x
      ⟨d, input.filter fun b => !s.contains b, [], 0⟩
    else complain d 1 ["tr: missing operand after " ++ quote x,
      "Two strings must be given when translating.",
      "Try 'tr --help' for more information."]
  | x :: y :: _ =>
    let a := setOfWord x
    let b := setOfWord y
    let image (c : UInt8) : UInt8 :=
      if a.contains c then
        (b[a.length - 1 - a.reverse.idxOf c]?).getD (b.getLast?.getD c)
      else c
    ⟨d, input.map image, [], 0⟩

/-- Sorts lines by their bytes. -/
def sort : Tool := withOptions "sort" ['r', 'u'] [] fun os xs input d =>
  let found := (if xs = [] then ["-"] else xs).map fun x => (x, source d input x)
  match found.findSome? fun (x, r) =>
      match r with
      | .error f => some (x, f)
      | .ok _ => none with
  | some (x, f) => complain d 2 ["sort: cannot read: " ++ x ++ ": " ++ faultText f]
  | none =>
    let ls := found.flatMap fun (_, r) => (splitLines (r.toOption.getD [])).map fun l =>
      if l.getLast? = some 10 then l.dropLast else l
    let sorted := ls.mergeSort fun a b => a ≤ b
    let sorted := if os.any (·.1 = 'u') then sorted.eraseReps else sorted
    let sorted := if os.any (·.1 = 'r') then sorted.reverse else sorted
    ⟨d, sorted.flatMap (· ++ [10]), [], 0⟩

/-- What the directory goes by: where it is cannot be told from inside. -/
def directoryName : String := "<root>"

/-- Names the directory. -/
def pwd : Tool := fun _ _ d =>
  ⟨d, lines [directoryName], [], 0⟩

/-- Counts from one number to another. -/
def seq : Tool := fun args _ d =>
  match args.map String.toNat? with
  | [some n] => ⟨d, lines ((List.range n).map fun i => toString (i + 1)), [], 0⟩
  | [some m, some n] => ⟨d, lines ((List.range (n + 1 - m)).map fun i => toString (m + i)), [], 0⟩
  | [] => misuse d 1 "seq" "missing operand"
  | _ => misuse d 1 "seq" ("invalid floating point argument: " ++ quote (args.headD ""))

/-- Decides a condition. -/
def test : Tool := fun args _ d =>
  match Condition.evaluate d args with
  | .ok true => silent d 0
  | .ok false => silent d 1
  | .error f => complain d 2 ["test: " ++ f.message]

/-- Decides a condition that ends in a bracket. -/
def bracket : Tool := fun args _ d =>
  if args.getLast? = some "]" then
    match Condition.evaluate d args.dropLast with
    | .ok true => silent d 0
    | .ok false => silent d 1
    | .error f => complain d 2 ["[: " ++ f.message]
  else complain d 2 ["[: missing ']'"]

/-- Writes its arguments. -/
def echo : Tool := fun args _ d =>
  let isFlags (w : String) : Bool :=
    match w.toList with
    | '-' :: c :: cs => (c :: cs).all ['n', 'e', 'E'].contains
    | _ => false
  let letters := (args.takeWhile isFlags).flatMap (·.toList)
  let text := " ".intercalate (args.dropWhile isFlags)
  let escapes := (letters.filter fun c => c = 'e' || c = 'E').getLast? = some 'e'
  let (bs, all) := if escapes then Escape.expand ⟨true, true⟩ text.toList
    else (Text.encode text, true)
  ⟨d, bs ++ (if letters.contains 'n' || !all then [] else [10]), [], 0⟩

/-- Writes its arguments by a format. -/
def printf : Tool := fun args _ d =>
  match args with
  | [] => misuse d 1 "printf" "missing operand"
  | format :: rest =>
    let (bs, bad) := Printing.run ⟨false, true⟩ format rest
    ⟨d, bs, bad.map fun x => "printf: " ++ quote x ++ ": expected a numeric value",
      if bad = [] then 0 else 1⟩

/-- The tools by name. -/
def all : OrderedMap String Tool :=
  [ ("true", fun _ _ d => silent d 0)
  , ("false", fun _ _ d => silent d 1)
  , ("test", test)
  , ("[", bracket)
  , ("echo", echo)
  , ("printf", printf)
  , ("cat", cat)
  , ("touch", touch)
  , ("rm", rm)
  , ("mv", mv)
  , ("cp", cp)
  , ("mkdir", mkdir)
  , ("ls", ls)
  , ("head", head)
  , ("tail", tail)
  , ("wc", wc)
  , ("tr", tr)
  , ("pwd", pwd)
  , ("seq", seq)
  , ("sort", sort) ]

/-- The milliseconds that a span of time in words takes. -/
def millis? (w : String) : Option Nat :=
  let digits := w.toList.takeWhile Char.isDigit
  let rest := w.toList.drop digits.length
  let (fraction, unit) := match rest with
    | '.' :: r => (r.takeWhile Char.isDigit, r.dropWhile Char.isDigit)
    | r => ([], r)
  let scale? : Option Nat := match unit with
    | [] | ['s'] => some 1
    | ['m'] => some 60
    | ['h'] => some 3600
    | ['d'] => some 86400
    | _ => none
  let value (ds : List Char) : Nat := (String.ofList ds).toNat?.getD 0
  if digits = [] && fraction = [] then none
  else scale?.map fun scale =>
    (value digits * 1000 + value ((fraction ++ ['0', '0', '0']).take 3)) * scale

/-- Waits for a while. -/
def sleep : Program := fun args _ d =>
  let spans := args.map fun w => (w, millis? w)
  match spans.find? (·.2.isNone) with
  | some (w, _) =>
    ⟨d, [], lines ["sleep: invalid time interval " ++ quote w,
      "Try 'sleep --help' for more information."], .exited 1, some 0⟩
  | none =>
    if spans = [] then
      ⟨d, [], lines ["sleep: missing operand",
        "Try 'sleep --help' for more information."], .exited 1, some 0⟩
    else ⟨d, [], [], .exited 0, some (spans.foldl (fun n x => n + x.2.getD 0) 0)⟩

/-- A tool as a program, which takes no time. -/
def program (t : Tool) : Program := fun args input d =>
  let r := t args input d
  ⟨r.disk, r.output, lines r.errors, .exited r.code, some 0⟩

/-- The programs that are no shells. -/
def programs : Programs := fun name =>
  if name = "sleep" then some sleep else (OrderedMap.get? all name).map program

end Tool

end Retarget.Shell
