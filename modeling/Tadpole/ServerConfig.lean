import Tadpole.Commands
import Tadpole.Quoting
import Tadpole.SdsBuffer

/-! The configuration file, `load_config` of db.c and `loadServerConfigFromString` of config.c: a file of quoted
directives, comments and blank lines sets what it says, and whatever a file is, what it sets is in range. -/
namespace Tadpole

inductive LogLevel
  | LL_DEBUG | LL_VERBOSE | LL_NOTICE | LL_WARNING
  deriving DecidableEq

/-- The settings of `struct dbServer`, and the directories the process has changed to. -/
structure ServerConfig where
  port : ℤ
  verbosity : LogLevel
  daemonize : Bool
  log_file : Option Bytes
  pidfile : Option Bytes
  db_filename : Option Bytes
  fl : Option FixedLength
  dirs : List Bytes

def init_config : ServerConfig := ⟨6666,.LL_NOTICE,false,none,none,none,none,[]⟩

/-- `chdir` and `fopen` for the directories changed to so far; `fopen` gives the text of its error. -/
structure ConfigEnv where
  chdir : List Bytes → Bytes → Bool
  fopen : List Bytes → Bytes → Option Bytes

/-- The digits at the front, behind the value `v`. -/
def digitsValue (v : ℕ) : Bytes → ℕ
  | [] => v
  | b::s => if 48 ≤ b ∧ b ≤ 57 then digitsValue (v*10+(b.toNat-48)) s else v

/-- `atoi` by way of `strtol`, which stays in the range of a `long`. -/
def atoi (s : Bytes) : ℤ :=
  let s := (cstr s).dropWhile isspace
  let value := match s with
    | 45::s => -(digitsValue 0 s : ℤ)
    | 43::s => digitsValue 0 s
    | s => digitsValue 0 s
  int32 (max (-9223372036854775808) (min value 9223372036854775807))

def yesnotoi (s : Bytes) : Option Bool :=
  if strcasecmp s (str "yes") then some true else if strcasecmp s (str "no") then some false else none

def pathIsBaseName (path : Bytes) : Bool := (strchr 47 path).isNone && (strchr 92 path).isNone

/-- Conversion of an `int` to an `unsigned int`. -/
def uint32 (n : ℤ) : ℕ := (n%4294967296).toNat

/-- One directive: the settings behind it, or the text of the error. -/
def executeDirective (env : ConfigEnv) (cfg : ServerConfig) : List Bytes → Except Bytes ServerConfig
  | [name,a] =>
    if strcasecmp name (str "port") then
      if atoi a < 0 ∨ atoi a > 65535 then .error (str "Invalid port") else .ok {cfg with port := atoi a}
    else if strcasecmp name (str "loglevel") then
      if strcasecmp a (str "debug") then .ok {cfg with verbosity := .LL_DEBUG}
      else if strcasecmp a (str "verbose") then .ok {cfg with verbosity := .LL_VERBOSE}
      else if strcasecmp a (str "notice") then .ok {cfg with verbosity := .LL_NOTICE}
      else if strcasecmp a (str "warning") then .ok {cfg with verbosity := .LL_WARNING}
      else .error (str "Invalid log level. Must be one of debug, notice, warning")
    else if strcasecmp name (str "dir") then
      if env.chdir cfg.dirs (cstr a) then .ok {cfg with dirs := cfg.dirs++[cstr a]}
      else .error (str "Changing directory failed")
    else if strcasecmp name (str "logfile") then
      match if cstr a = [] then none else env.fopen cfg.dirs (cstr a) with
      | some text => .error (str "Can't open the log file: "++text)
      | none => .ok {cfg with log_file := some (cstr a)}
    else if strcasecmp name (str "daemonize") then
      match yesnotoi a with
      | some b => .ok {cfg with daemonize := b}
      | none => .error (str "argument must be 'yes' or 'no'")
    else if strcasecmp name (str "pidfile") then .ok {cfg with pidfile := some (cstr a)}
    else if strcasecmp name (str "dbfilename") then
      if pathIsBaseName a then .ok {cfg with db_filename := some (cstr a)}
      else .error (str "dbfilename can't be a path, just a filename")
    else .error (str "Bad directive or wrong number of arguments")
  | [name,a,b] =>
    if strcasecmp name (str "fixed-length") then .ok {cfg with fl := some ⟨uint32 (atoi a),uint32 (atoi b)⟩}
    else .error (str "Bad directive or wrong number of arguments")
  | _ => .error (str "Bad directive or wrong number of arguments")

/-- What is printed in front of `exit(1)`: the number of the line, the line, and why. -/
structure ConfigError where
  linenum : ℕ
  line : Bytes
  err : Bytes
  deriving DecidableEq

abbrev configSpace : Bytes := str " \t\r\n"

/-- The loop over the lines, the first of which has the number `linenum`. -/
def loadLines (env : ConfigEnv) (cfg : ServerConfig) (linenum : ℕ) : List Bytes → Except ConfigError ServerConfig
  | [] => .ok cfg
  | l::lines =>
    let line := sdstrim l configSpace
    if line.headD NUL = 35 ∨ line.headD NUL = NUL then loadLines env cfg (linenum+1) lines
    else
      match sdssplitargs line with
      | none => .error ⟨linenum,line,str "Unbalanced quotes in configuration line"⟩
      | some [] => loadLines env cfg (linenum+1) lines
      | some (name::args) =>
        match executeDirective env cfg (name.map tolower::args) with
        | .error err => .error ⟨linenum,line,err⟩
        | .ok cfg => loadLines env cfg (linenum+1) lines

/-- Without a result of `sdssplitlen` the number of lines is not set. -/
def loadServerConfigFromString (env : ConfigEnv) (cfg : ServerConfig) (config : Bytes) :
    Option (Except ConfigError ServerConfig) :=
  (sdssplitlen (cstr config) (int32 (cstr config).length) LF).map (loadLines env cfg 1)

/-- What `fgets` gives, call after call, for a buffer of CONFIG_MAX_LINE+1 bytes; `room` bytes have room behind
`cur`. -/
def fgetsChunks (room : ℕ) (cur : Bytes) : Bytes → List Bytes
  | [] => if cur = [] then [] else [cur]
  | b::s => if b = LF ∨ room ≤ 1 then (cur++[b])::fgetsChunks 1024 [] s else fgetsChunks (room-1) (cur++[b]) s

def load_config (env : ConfigEnv) (cfg : ServerConfig) (file : Bytes) : Option (Except ConfigError ServerConfig) :=
  loadServerConfigFromString env cfg ((fgetsChunks 1024 [] file).flatMap cstr)

/-- A word as it stands, or quoted as `sdscatrepr` quotes it. -/
inductive ConfigWord
  | bare (word : Bytes)
  | quoted (word : Bytes)

namespace ConfigWord

def word : ConfigWord → Bytes
  | bare word => word
  | quoted word => word

def text : ConfigWord → Bytes
  | bare word => word
  | quoted word => sdscatrepr [] word

/-- A word as it stands is not empty and has neither white space nor quotes. -/
def Legal : ConfigWord → Prop
  | bare word => word ≠ [] ∧ ∀ b ∈ word, isspace b = false ∧ b ≠ NUL ∧ b ≠ 34 ∧ b ≠ 39
  | quoted _ => True

end ConfigWord

/-- A line of a configuration file, with white space around it and in front of the arguments of a directive. -/
inductive ConfigLine
  | blank (space : Bytes)
  | comment (space text : Bytes)
  | directive (space : Bytes) (name : ConfigWord) (args : List (Bytes × ConfigWord)) (space' : Bytes)

namespace ConfigLine

def directiveText (name : ConfigWord) (args : List (Bytes × ConfigWord)) : Bytes :=
  name.text++args.flatMap fun a => a.1++a.2.text

def bytes : ConfigLine → Bytes
  | blank space => space
  | comment space text => space++35::text
  | directive space name args space' => space++directiveText name args++space'

def IsSpace (space : Bytes) : Prop := ∀ b ∈ space, b = 32 ∨ b = 9 ∨ b = CR

def Legal : ConfigLine → Prop
  | blank space => IsSpace space
  | comment space text => IsSpace space ∧ LF ∉ text ∧ NUL ∉ text
  | directive space name args space' => IsSpace space ∧ IsSpace space' ∧ name.Legal ∧ name.text.head? ≠ some 35 ∧
      ∀ a ∈ args, a.1 ≠ [] ∧ IsSpace a.1 ∧ a.2.Legal

/-- The directives one after the other, from the line `linenum` on. -/
def execute (env : ConfigEnv) (cfg : ServerConfig) (linenum : ℕ) : List ConfigLine → Except ConfigError ServerConfig
  | [] => .ok cfg
  | directive _ name args _::lines =>
    match executeDirective env cfg (name.word.map tolower::args.map fun a => a.2.word) with
    | .error err => .error ⟨linenum,directiveText name args,err⟩
    | .ok cfg => execute env cfg (linenum+1) lines
  | _::lines => execute env cfg (linenum+1) lines

end ConfigLine

def configFile (lines : List ConfigLine) : Bytes := [LF].intercalate (lines.map ConfigLine.bytes)

theorem fgetsChunks_flatMap {room : ℕ} {cur s : Bytes} (hcur : NUL ∉ cur) (hs : NUL ∉ s) :
    (fgetsChunks room cur s).flatMap cstr = cur++s := by
  induction s generalizing room cur with
  | nil =>
    rw [fgetsChunks]
    split_ifs with h
    · rw [h]
      rfl
    · simp [cstr_eq_self hcur]
  | cons b s ih =>
    rw [List.mem_cons,not_or] at hs
    have hcur' : NUL ∉ cur++[b] := by simp [hcur,hs.1]
    rw [fgetsChunks]
    split_ifs with h
    · rw [List.flatMap_cons,cstr_eq_self hcur',ih (by simp) hs.2]
      simp
    · rw [ih hcur' hs.2]
      simp

theorem intercalate_two (sep : UInt8) (l l' : Bytes) (lines : List Bytes) :
    [sep].intercalate (l::l'::lines) = l++sep::[sep].intercalate (l'::lines) := by simp [List.intercalate]

theorem notMem_intercalate {c sep : UInt8} (hc : c ≠ sep) {lines : List Bytes} (h : ∀ s ∈ lines, c ∉ s) :
    c ∉ [sep].intercalate lines := by
  induction lines with
  | nil => simp
  | cons l lines ih =>
    have hl := h l (by simp)
    have hrest := ih fun s hs => h s (by simp [hs])
    cases lines with
    | nil => simpa using hl
    | cons l' lines =>
      rw [intercalate_two,List.mem_append,List.mem_cons]
      rintro (h | h | h)
      · exact hl h
      · exact hc h
      · exact hrest h

theorem splitByte_intercalate {sep : UInt8} (l : Bytes) {lines : List Bytes} (h : ∀ s ∈ l::lines, sep ∉ s) :
    splitByte sep [] ([sep].intercalate (l::lines)) = l::lines := by
  induction lines generalizing l with
  | nil =>
    rw [show [sep].intercalate [l] = l by simp,splitByte_of_notMem (h l (by simp)),List.nil_append]
  | cons l' lines ih =>
    rw [intercalate_two,splitByte_append (h l (by simp)),ih l' fun s hs => h s (List.mem_cons_of_mem _ hs),List.nil_append]

theorem ConfigLine.IsSpace.inCset {space : Bytes} (h : ConfigLine.IsSpace space) :
    ∀ b ∈ space, inCset configSpace b = true := by
  intro b hb
  rcases h b hb with rfl | rfl | rfl <;> decide

theorem ConfigLine.IsSpace.clean {space : Bytes} (h : ConfigLine.IsSpace space) : NUL ∉ space ∧ LF ∉ space := by
  constructor <;> intro hm <;> rcases h _ hm with h | h | h <;> cases h

theorem sdstrim_between {cset a q c : Bytes} (ha : ∀ b ∈ a, inCset cset b = true) (hc : ∀ b ∈ c, inCset cset b = true)
    (hhead : ∀ b ∈ q.head?, inCset cset b = false) (hlast : ∀ b ∈ q.getLast?, inCset cset b = false) (hq : q ≠ []) :
    sdstrim (a++q++c) cset = q := by
  have hfirst : (q++c).dropWhile (inCset cset) = q++c := by
    obtain ⟨b,q',rfl⟩ := List.exists_cons_of_ne_nil hq
    rw [List.cons_append,List.dropWhile_cons_of_neg]
    simp [hhead b rfl]
  have hend : q.reverse.dropWhile (inCset cset) = q.reverse := by
    obtain ⟨q',b,rfl⟩ := List.eq_nil_or_concat' q |>.resolve_left hq
    rw [List.reverse_append,List.reverse_singleton,List.singleton_append,List.dropWhile_cons_of_neg]
    simp [hlast b (by simp)]
  rw [sdstrim,List.append_assoc,List.dropWhile_append_of_pos ha,hfirst,List.rdropWhile,List.reverse_append,
    List.dropWhile_append_of_pos (fun x hx => hc x (List.mem_reverse.mp hx)),hend,List.reverse_reverse]

theorem sdstrim_space {cset a : Bytes} (ha : ∀ b ∈ a, inCset cset b = true) : sdstrim a cset = [] := by
  rw [sdstrim,List.dropWhile_eq_nil_iff.mpr ha]
  rfl

theorem sdstrim_head {cset a t : Bytes} {b : UInt8} (ha : ∀ x ∈ a, inCset cset x = true) (hb : inCset cset b = false) :
    (sdstrim (a++b::t) cset).headD NUL = b := by
  rw [sdstrim,List.dropWhile_append_of_pos ha,List.dropWhile_cons_of_neg (by simp [hb])]
  obtain ⟨post,hpost⟩ := List.rdropWhile_prefix (inCset cset) (l:=b::t)
  cases hres : (b::t).rdropWhile (inCset cset) with
  | nil =>
    have := List.rdropWhile_eq_nil_iff.mp hres b (by simp)
    rw [hb] at this
    cases this
  | cons x xs =>
    rw [hres,List.cons_append] at hpost
    exact (List.cons.inj hpost).1

/-- A text that `sdstrim` leaves alone, and that has no end of a line in it. -/
structure Trimmed (q : Bytes) : Prop where
  ne : q ≠ []
  head : ∀ b ∈ q.head?, inCset configSpace b = false
  last : ∀ b ∈ q.getLast?, inCset configSpace b = false
  clean : NUL ∉ q ∧ LF ∉ q

theorem inCset_of_isspace {b : UInt8} (h : isspace b = false) (h0 : b ≠ NUL) : inCset configSpace b = false := by
  revert h h0
  obtain ⟨n,rfl⟩ := byte_eq_ofNat b
  revert n
  decide +kernel

theorem ConfigWord.Legal.trimmed {w : ConfigWord} (h : w.Legal) : Trimmed w.text := by
  cases w with
  | bare word =>
    obtain ⟨hne,hall⟩ := h
    have hcset : ∀ b ∈ word, inCset configSpace b = false := fun b hb =>
      inCset_of_isspace (hall b hb).1 (hall b hb).2.1
    refine ⟨hne,fun b hb => hcset b (List.mem_of_mem_head? hb),fun b hb => hcset b (List.mem_of_mem_getLast? hb),
      fun hm => (hall _ hm).2.1 rfl,fun hm => ?_⟩
    have := (hall _ hm).1
    cases this
  | quoted word =>
    have hquote : inCset configSpace 34 = false := by decide
    have hclean : ∀ c, isprint c = false → c ∉ sdscatrepr [] word := by
      intro c hc hm
      rw [sdscatrepr_isprint hm] at hc
      cases hc
    refine ⟨by simp [text,sdscatrepr],?_,?_,hclean _ rfl,hclean _ rfl⟩
    · rintro b ⟨⟩
      exact hquote
    · intro b hb
      have hlast : (sdscatrepr [] word).getLast? = some 34 := by simp [sdscatrepr,List.getLast?_cons]
      obtain rfl := Option.some.inj (hlast.symm.trans hb)
      exact hquote

/-- A byte outside of quotes. -/
theorem splitArgs_unquoted {mode : ArgMode} (hmode : mode = .blank ∨ mode = .plain) (current : Bytes) (vector : List Bytes)
    (b : UInt8) (s : Bytes) : splitArgs mode current vector (b::s) =
      if mode = .blank ∧ isspace b then splitArgs .blank [] vector s
      else if b = 32 ∨ b = 10 ∨ b = 13 ∨ b = 9 then splitArgs .blank [] (vector++[current]) s
      else if b = 34 then splitArgs .inq current vector s
      else if b = 39 then splitArgs .insq current vector s
      else splitArgs .plain (current++[b]) vector s := by
  rcases hmode with rfl | rfl <;> rw [splitArgs] <;> simp

theorem splitArgs_space {space : Bytes} (h : ConfigLine.IsSpace space) (vector : List Bytes) (s : Bytes) :
    splitArgs .blank [] vector (space++s) = splitArgs .blank [] vector s := by
  induction space with
  | nil => rfl
  | cons b space ih =>
    have hb : isspace b = true := by rcases h b (by simp) with rfl | rfl | rfl <;> rfl
    rw [List.cons_append,splitArgs_unquoted (Or.inl rfl),if_pos ⟨rfl,hb⟩]
    exact ih fun b hb => h b (by simp [hb])

theorem splitArgs_plain {word : Bytes} (h : ∀ b ∈ word, isspace b = false ∧ b ≠ NUL ∧ b ≠ 34 ∧ b ≠ 39) (current : Bytes)
    (vector : List Bytes) (s : Bytes) :
    splitArgs .plain current vector (word++s) = splitArgs .plain (current++word) vector s := by
  induction word generalizing current with
  | nil => simp
  | cons b word ih =>
    obtain ⟨hspace,-,hdq,hsq⟩ := h b (by simp)
    have hend : ¬ (b = 32 ∨ b = 10 ∨ b = 13 ∨ b = 9) := by
      rintro (rfl | rfl | rfl | rfl) <;> cases hspace
    rw [List.cons_append,splitArgs_unquoted (Or.inr rfl),if_neg (by simp),if_neg hend,if_neg hdq,if_neg hsq,
      ih (fun b hb => h b (by simp [hb])),List.append_assoc,List.singleton_append]

theorem ConfigWord.Legal.split {w : ConfigWord} (h : w.Legal) (vector : List Bytes) {s : Bytes}
    (hs : ∀ b ∈ s.head?, b = 32 ∨ b = 9 ∨ b = CR) :
    splitArgs .blank [] vector (w.text++s) = splitArgs .blank [] (vector++[w.word]) s := by
  cases w with
  | quoted word =>
    refine splitArgs_word vector word s ?_
    cases s with
    | nil => rfl
    | cons b s => rcases hs b rfl with rfl | rfl | rfl <;> rfl
  | bare word =>
    obtain ⟨hne,hall⟩ := h
    obtain ⟨b,word',rfl⟩ := List.exists_cons_of_ne_nil hne
    obtain ⟨hspace,-,hdq,hsq⟩ := hall b (by simp)
    have hend : ¬ (b = 32 ∨ b = 10 ∨ b = 13 ∨ b = 9) := by
      rintro (rfl | rfl | rfl | rfl) <;> cases hspace
    have hopen : splitArgs .blank [] vector (b::word'++s) = splitArgs .plain [b] vector (word'++s) := by
      rw [List.cons_append,splitArgs_unquoted (Or.inl rfl),if_neg (by simp [hspace]),if_neg hend,if_neg hdq,if_neg hsq,
        List.nil_append]
    rw [text,word,hopen,splitArgs_plain fun b hb => hall b (by simp [hb]),List.singleton_append]
    cases s with
    | nil => rfl
    | cons c s =>
      have hc := hs c rfl
      have hclose : c = 32 ∨ c = 10 ∨ c = 13 ∨ c = 9 := by
        rcases hc with rfl | rfl | rfl <;> simp [CR]
      have hblank : isspace c = true := by rcases hc with rfl | rfl | rfl <;> rfl
      rw [splitArgs_unquoted (Or.inr rfl),if_neg (by simp),if_pos hclose,splitArgs_unquoted (Or.inl rfl),
        if_pos ⟨rfl,hblank⟩]

theorem directiveText_cons (name : ConfigWord) (a : Bytes × ConfigWord) (args : List (Bytes × ConfigWord)) :
    ConfigLine.directiveText name (a::args) = name.text++(a.1++ConfigLine.directiveText a.2 args) := by
  simp [ConfigLine.directiveText]

section
variable {name : ConfigWord} {args : List (Bytes × ConfigWord)}

theorem directiveText_split (hname : name.Legal) (hargs : ∀ a ∈ args, a.1 ≠ [] ∧ ConfigLine.IsSpace a.1 ∧ a.2.Legal)
    (vector : List Bytes) : splitArgs .blank [] vector (ConfigLine.directiveText name args) =
      some (vector++name.word::args.map fun a => a.2.word) := by
  induction args generalizing name vector with
  | nil =>
    have h := hname.split vector (s:=[]) (by simp)
    rw [List.append_nil] at h
    rw [ConfigLine.directiveText,List.flatMap_nil,List.append_nil,h,splitArgs]
    rfl
  | cons a args ih =>
    rw [List.forall_mem_cons] at hargs
    obtain ⟨⟨hne,hspace,ha⟩,hrest⟩ := hargs
    obtain ⟨b,gap,hgap⟩ := List.exists_cons_of_ne_nil hne
    have hhead : ∀ c ∈ (a.1++ConfigLine.directiveText a.2 args).head?, c = 32 ∨ c = 9 ∨ c = CR := by
      rw [hgap]
      rintro c ⟨⟩
      exact hspace b (by simp [hgap])
    rw [directiveText_cons,hname.split vector hhead,splitArgs_space hspace,ih ha hrest,List.append_assoc]
    rfl

theorem directiveText_trimmed (hname : name.Legal) (hargs : ∀ a ∈ args, a.1 ≠ [] ∧ ConfigLine.IsSpace a.1 ∧ a.2.Legal) :
    Trimmed (ConfigLine.directiveText name args) := by
  induction args generalizing name with
  | nil =>
    rw [ConfigLine.directiveText,List.flatMap_nil,List.append_nil]
    exact hname.trimmed
  | cons a args ih =>
    rw [List.forall_mem_cons] at hargs
    obtain ⟨⟨-,hspace,ha⟩,hrest⟩ := hargs
    have hfront := hname.trimmed
    have hend := ih ha hrest
    rw [directiveText_cons]
    refine ⟨List.append_ne_nil_of_left_ne_nil hfront.ne _,?_,?_,?_,?_⟩
    · rw [List.head?_append_of_ne_nil _ hfront.ne]
      exact hfront.head
    · rw [← List.append_assoc,List.getLast?_append_of_ne_nil _ hend.ne]
      exact hend.last
    · simp only [List.mem_append,not_or]
      exact ⟨hfront.clean.1,hspace.clean.1,hend.clean.1⟩
    · simp only [List.mem_append,not_or]
      exact ⟨hfront.clean.2,hspace.clean.2,hend.clean.2⟩

end

theorem ConfigLine.Legal.clean {l : ConfigLine} (h : l.Legal) : NUL ∉ l.bytes ∧ LF ∉ l.bytes := by
  cases l with
  | blank space => exact IsSpace.clean h
  | comment space text =>
    obtain ⟨hs,hlf,hnul⟩ := h
    obtain ⟨h₁,h₂⟩ := hs.clean
    simp only [bytes,List.mem_append,List.mem_cons,not_or]
    exact ⟨⟨h₁,by decide,hnul⟩,h₂,by decide,hlf⟩
  | directive space name args space' =>
    obtain ⟨hs,hs',hname,-,hargs⟩ := h
    obtain ⟨h₁,h₂⟩ := hs.clean
    obtain ⟨h₁',h₂'⟩ := hs'.clean
    have htext := (directiveText_trimmed hname hargs).clean
    simp only [bytes,List.mem_append,not_or]
    exact ⟨⟨⟨h₁,htext.1⟩,h₁'⟩,⟨h₂,htext.2⟩,h₂'⟩

theorem loadLines_eq (env : ConfigEnv) (cfg : ServerConfig) (linenum : ℕ) {lines : List ConfigLine}
    (h : ∀ l ∈ lines, l.Legal) :
    loadLines env cfg linenum (lines.map ConfigLine.bytes) = ConfigLine.execute env cfg linenum lines := by
  induction lines generalizing cfg linenum with
  | nil => rfl
  | cons l lines ih =>
    have hl := h l (by simp)
    have hrest := fun cfg => ih cfg (linenum+1) fun l hl => h l (by simp [hl])
    rw [List.map_cons,loadLines]
    cases l with
    | blank space =>
      have htrim : sdstrim (ConfigLine.blank space).bytes configSpace = [] := sdstrim_space (ConfigLine.IsSpace.inCset hl)
      simp only [htrim,List.headD_nil,or_true,if_true]
      exact hrest cfg
    | comment space text =>
      have hhead : (sdstrim (ConfigLine.comment space text).bytes configSpace).headD NUL = 35 :=
        sdstrim_head (ConfigLine.IsSpace.inCset hl.1) (by decide)
      simp only [hhead,true_or,if_true]
      exact hrest cfg
    | directive space name args space' =>
      obtain ⟨hspace,hspace',hname,hsharp,hargs⟩ := hl
      have htext := directiveText_trimmed hname hargs
      have htrim : sdstrim (ConfigLine.directive space name args space').bytes configSpace =
          ConfigLine.directiveText name args :=
        sdstrim_between hspace.inCset hspace'.inCset htext.head htext.last htext.ne
      have hargv : sdssplitargs (ConfigLine.directiveText name args) = some (name.word::args.map fun a => a.2.word) := by
        rw [sdssplitargs,cstr_eq_self htext.clean.1,directiveText_split hname hargs]
        rfl
      have hskip : ¬ ((ConfigLine.directiveText name args).headD NUL = 35 ∨
          (ConfigLine.directiveText name args).headD NUL = NUL) := by
        have hhead : (ConfigLine.directiveText name args).head? = name.text.head? :=
          List.head?_append_of_ne_nil _ hname.trimmed.ne
        rw [List.headD_eq_head?_getD,hhead]
        obtain ⟨b,q,hq⟩ := List.exists_cons_of_ne_nil hname.trimmed.ne
        rw [hq] at hsharp ⊢
        rintro (h | h)
        · exact hsharp (congrArg some h)
        · exact hname.trimmed.clean.1 (by rw [hq]; exact h ▸ List.mem_cons_self)
      simp only [htrim,hskip,if_false,hargv,ConfigLine.execute]
      cases executeDirective env cfg (name.word.map tolower::args.map fun a => a.2.word) with
      | error err => rfl
      | ok cfg => exact hrest cfg

theorem load_config_lines (env : ConfigEnv) (cfg : ServerConfig) {lines : List ConfigLine} (h : ∀ l ∈ lines, l.Legal)
    (hlen : (configFile lines).length < 2147483648) :
    load_config env cfg (configFile lines) = some (ConfigLine.execute env cfg 1 lines) := by
  cases lines with
  | nil => rfl
  | cons l lines =>
    have hbytes : ∀ s ∈ (l::lines).map ConfigLine.bytes, NUL ∉ s ∧ LF ∉ s := by
      intro s hs
      obtain ⟨l',hl',rfl⟩ := List.mem_map.mp hs
      exact (h l' hl').clean
    have hnul : NUL ∉ configFile (l::lines) := notMem_intercalate (by decide) fun s hs => (hbytes s hs).1
    have hsplit : splitByte LF [] (configFile (l::lines)) = (l::lines).map ConfigLine.bytes :=
      splitByte_intercalate _ fun s hs => (hbytes s hs).2
    rw [load_config,fgetsChunks_flatMap (by simp) hnul,List.nil_append,loadServerConfigFromString,cstr_eq_self hnul,
      int32_nat hlen,← loadLines_eq env cfg 1 h,sdssplitlen,if_neg (by omega)]
    split_ifs with hzero
    · -- a file of no byte is one blank line
      have hempty : configFile (l::lines) = [] := List.length_eq_zero_iff.mp (by exact_mod_cast hzero)
      rw [hempty] at hsplit
      rw [← hsplit]
      rfl
    · rw [Int.toNat_natCast,List.take_length,hsplit]
      rfl

/-- A configuration file of directives, of comments and of blank lines, with white space around them, does what its
directives do one after the other; where one of them fails, its line is reported. -/
theorem config_file_loads (env : ConfigEnv) (cfg : ServerConfig) (lines : List ConfigLine) (h : ∀ l ∈ lines, l.Legal)
    (hlen : (configFile lines).length < 2147483648) :
    load_config env cfg (configFile lines) = some (ConfigLine.execute env cfg 1 lines) := load_config_lines env cfg h hlen

/-- A comment, a port with white space around it, a quoted file name, and a directive that does not exist. -/
theorem config_file_loads_port :
    load_config ⟨fun _ _ => true,fun _ _ => none⟩ init_config (str "# where\n port  7000\t\n\nlogfile \"a b\"\npor 1")
      = some (.error ⟨5,str "por 1",str "Bad directive or wrong number of arguments"⟩) := by
  have h := config_file_loads ⟨fun _ _ => true,fun _ _ => none⟩ init_config
    [.comment [] (str " where"),.directive [32] (.bare (str "port")) [([32,32],.bare (str "7000"))] [9],.blank [],
      .directive [] (.bare (str "logfile")) [([32],.quoted (str "a b"))] [],
      .directive [] (.bare (str "por")) [([32],.bare (str "1"))] []]
    (by simp [ConfigLine.Legal,ConfigLine.IsSpace,ConfigWord.Legal,ConfigWord.text,str,isspace,LF,NUL])
    (by decide)
  exact h

/-- The settings are in the range the server takes them to be in, and the directories could be changed to. -/
structure ServerConfig.Valid (env : ConfigEnv) (cfg : ServerConfig) : Prop where
  port : 0 ≤ cfg.port ∧ cfg.port ≤ 65535
  db_filename : ∀ name, cfg.db_filename = some name → 47 ∉ name ∧ 92 ∉ name ∧ NUL ∉ name
  fl : ∀ fl, cfg.fl = some fl → fl.keyLen < 4294967296 ∧ fl.valLen < 4294967296
  dirs : ∀ front d rest, cfg.dirs = front++d::rest → env.chdir front d = true

theorem init_config_valid (env : ConfigEnv) : init_config.Valid env where
  port := by decide
  db_filename := by
    intro name h
    cases h
  fl := by
    intro fl h
    cases h
  dirs := by
    intro front d rest h
    cases front <;> cases h

theorem uint32_lt (n : ℤ) : uint32 n < 4294967296 := by
  have h₁ := Int.emod_nonneg n (b:=4294967296) (by decide)
  have h₂ := Int.emod_lt_of_pos n (b:=4294967296) (by decide)
  rw [uint32]
  omega

theorem nul_notMem_cstr (s : Bytes) : NUL ∉ cstr s := by
  intro h
  have := List.mem_takeWhile_imp h
  simp at this

theorem notMem_cstr_of_strchr {c : UInt8} {s : Bytes} (h : (strchr c s).isNone = true) : c ∉ cstr s := by
  induction s with
  | nil => simp [cstr]
  | cons b s ih =>
    rw [strchr] at h
    split_ifs at h with hb h0
    · cases h
    · simp [cstr,h0]
    · rw [Option.isNone_map] at h
      have hcons : cstr (b::s) = b::cstr s := by simp [cstr,h0]
      rw [hcons,List.mem_cons,not_or]
      exact ⟨Ne.symm hb,ih h⟩

/-- One directive that is executed keeps the settings in range. -/
theorem executeDirective_valid {env : ConfigEnv} {cfg cfg' : ServerConfig} {argv : List Bytes} (hcfg : cfg.Valid env)
    (h : executeDirective env cfg argv = .ok cfg') : cfg'.Valid env := by
  obtain ⟨hport,hname,hfl,hdirs⟩ := hcfg
  unfold executeDirective at h
  split at h
  case h_1 name a =>
    -- one bullet per setting: the port, the four log levels, the directory, the log file, and what is left
    split_ifs at h with _ hrange _ _ _ _ _ _ hchdir _ _ _ _ _ hbase
    · obtain rfl := Except.ok.inj h
      exact ⟨by dsimp only; omega,hname,hfl,hdirs⟩
    iterate 4
      · obtain rfl := Except.ok.inj h
        exact ⟨hport,hname,hfl,hdirs⟩
    · obtain rfl := Except.ok.inj h
      refine ⟨hport,hname,hfl,?_⟩
      intro front d rest hd
      rcases List.eq_nil_or_concat' rest with rfl | ⟨rest,e,rfl⟩
      · obtain ⟨rfl,hlast⟩ := List.append_inj' hd rfl
        obtain rfl := (List.cons.inj hlast).1
        exact hchdir
      · rw [← List.cons_append,← List.append_assoc] at hd
        exact hdirs _ _ _ (List.append_inj' hd rfl).1
    iterate 2
      · split at h
        · cases h
        · obtain rfl := Except.ok.inj h
          exact ⟨hport,hname,hfl,hdirs⟩
    · split at h
      · obtain rfl := Except.ok.inj h
        exact ⟨hport,hname,hfl,hdirs⟩
      · cases h
    · obtain rfl := Except.ok.inj h
      exact ⟨hport,hname,hfl,hdirs⟩
    · obtain rfl := Except.ok.inj h
      refine ⟨hport,?_,hfl,hdirs⟩
      rintro name ⟨rfl⟩
      rw [pathIsBaseName,Bool.and_eq_true] at hbase
      exact ⟨notMem_cstr_of_strchr hbase.1,notMem_cstr_of_strchr hbase.2,nul_notMem_cstr _⟩
  case h_2 name a b =>
    split_ifs at h
    obtain rfl := Except.ok.inj h
    refine ⟨hport,hname,?_,hdirs⟩
    rintro fl ⟨rfl⟩
    exact ⟨uint32_lt _,uint32_lt _⟩
  case h_3 => cases h

theorem loadLines_cons (env : ConfigEnv) (cfg : ServerConfig) (linenum : ℕ) (l : Bytes) (lines : List Bytes) :
    loadLines env cfg linenum (l::lines)
      = (loadLines env cfg linenum [l]).bind fun cfg => loadLines env cfg (linenum+1) lines := by
  simp only [loadLines]
  split_ifs
  · rfl
  · cases sdssplitargs (sdstrim l configSpace) with
    | none => rfl
    | some argv =>
      cases argv with
      | nil => rfl
      | cons name args =>
        dsimp only
        cases executeDirective env cfg (name.map tolower::args) <;> rfl

/-- One line keeps the settings in range, or is reported, and then is neither blank nor a comment. -/
theorem loadLine_outcome {env : ConfigEnv} {cfg : ServerConfig} (hcfg : cfg.Valid env) (linenum : ℕ) (l : Bytes) :
    match loadLines env cfg linenum [l] with
    | .ok cfg' => cfg'.Valid env
    | .error e => e.linenum = linenum ∧ e.line = sdstrim l configSpace ∧ e.line.headD NUL ≠ 35 ∧ e.line ≠ [] := by
  simp only [loadLines]
  split_ifs with hskip
  · exact hcfg
  · have hline : (sdstrim l configSpace).headD NUL ≠ 35 ∧ sdstrim l configSpace ≠ [] := by
      rw [not_or] at hskip
      exact ⟨hskip.1,fun hnil => hskip.2 (by rw [hnil]; rfl)⟩
    cases sdssplitargs (sdstrim l configSpace) with
    | none => exact ⟨rfl,rfl,hline⟩
    | some argv =>
      cases argv with
      | nil => exact hcfg
      | cons name args =>
        cases hexec : executeDirective env cfg (name.map tolower::args) with
        | error err =>
          simp only [hexec]
          exact ⟨trivial,trivial,hline⟩
        | ok cfg' =>
          simp only [hexec]
          exact executeDirective_valid hcfg hexec

theorem loadLines_outcome {env : ConfigEnv} {cfg : ServerConfig} (hcfg : cfg.Valid env) (linenum : ℕ) (lines : List Bytes) :
    match loadLines env cfg linenum lines with
    | .ok cfg' => cfg'.Valid env
    | .error e => ∃ front l rest cfg', lines = front++l::rest ∧ loadLines env cfg linenum front = .ok cfg' ∧
        cfg'.Valid env ∧ e.linenum = linenum+front.length ∧ e.line = sdstrim l configSpace ∧
        e.line.headD NUL ≠ 35 ∧ e.line ≠ [] := by
  induction lines generalizing cfg linenum with
  | nil => exact hcfg
  | cons l lines ih =>
    have hline := loadLine_outcome hcfg linenum l
    rw [loadLines_cons]
    cases hl : loadLines env cfg linenum [l] with
    | error e =>
      rw [hl] at hline
      obtain ⟨hnum,hrest⟩ := hline
      exact ⟨[],l,lines,cfg,rfl,rfl,hcfg,hnum,hrest⟩
    | ok cfg' =>
      rw [hl] at hline
      have hrest := ih hline (linenum+1)
      simp only [Except.bind]
      cases hls : loadLines env cfg' (linenum+1) lines with
      | ok cfg'' =>
        rw [hls] at hrest
        exact hrest
      | error e =>
        rw [hls] at hrest
        obtain ⟨front,l',rest,cfg'',rfl,hfront,hvalid,hnum,hreport⟩ := hrest
        refine ⟨l::front,l',rest,cfg'',rfl,?_,hvalid,?_,hreport⟩
        · rw [loadLines_cons,hl]
          exact hfront
        · rw [hnum,List.length_cons]
          omega

/-- The lines of the text that `fgets` hands over of a file. -/
def configLines (file : Bytes) : Option (List Bytes) :=
  let config := cstr ((fgetsChunks 1024 [] file).flatMap cstr)
  sdssplitlen config (int32 config.length) LF

theorem fgetsChunks_length (room : ℕ) (cur s : Bytes) :
    ((fgetsChunks room cur s).flatMap cstr).length ≤ cur.length+s.length := by
  induction s generalizing room cur with
  | nil =>
    rw [fgetsChunks]
    split_ifs with h
    · simp
    · rw [List.flatMap_singleton]
      exact (cstr_length_le cur).trans (Nat.le_add_right ..)
  | cons b s ih =>
    have hsnoc : (cur++[b]).length = cur.length+1 := by rw [List.length_append,List.length_singleton]
    rw [fgetsChunks,List.length_cons]
    split_ifs with h
    · have hline := cstr_length_le (cur++[b])
      have hrest := ih 1024 []
      rw [List.length_nil] at hrest
      rw [List.flatMap_cons,List.length_append]
      omega
    · have hrest := ih (room-1) (cur++[b])
      omega

theorem configLines_isSome {file : Bytes} (h : file.length < 2147483648) : ∃ lines, configLines file = some lines := by
  have htext := fgetsChunks_length 1024 [] file
  have hconfig := cstr_length_le ((fgetsChunks 1024 [] file).flatMap cstr)
  rw [List.length_nil] at htext
  rw [configLines,sdssplitlen,int32_nat (by omega),if_neg (by omega)]
  split_ifs
  · exact ⟨_,rfl⟩
  · exact ⟨_,rfl⟩

/-- Whatever a configuration file is, it loads and the settings it leaves behind are in range, or the first line that
does not load is reported, by its number in the file: the settings in front of it are in range, and it is neither
blank nor a comment. -/
theorem config_in_range (env : ConfigEnv) (file : Bytes) (hlen : file.length < 2147483648) :
    (∃ cfg, load_config env init_config file = some (.ok cfg) ∧ cfg.Valid env) ∨
    ∃ e front l rest cfg, load_config env init_config file = some (.error e) ∧
      configLines file = some (front++l::rest) ∧ loadLines env init_config 1 front = .ok cfg ∧ cfg.Valid env ∧
      e.linenum = front.length+1 ∧ e.line = sdstrim l configSpace ∧ e.line.headD NUL ≠ 35 ∧ e.line ≠ [] := by
  obtain ⟨lines,hlines⟩ := configLines_isSome hlen
  have hresult : load_config env init_config file = some (loadLines env init_config 1 lines) := by
    rw [load_config,loadServerConfigFromString]
    exact congrArg (Option.map (loadLines env init_config 1)) hlines
  have hload := loadLines_outcome (init_config_valid env) 1 lines
  cases hl : loadLines env init_config 1 lines with
  | ok cfg =>
    rw [hl] at hload
    exact Or.inl ⟨cfg,by rw [hresult,hl],hload⟩
  | error e =>
    rw [hl] at hload
    obtain ⟨front,l,rest,cfg,rfl,hfront,hvalid,hnum,hreport⟩ := hload
    exact Or.inr ⟨e,front,l,rest,cfg,by rw [hresult,hl],hlines,hfront,hvalid,by omega,hreport⟩

/-- A port that is too large behind a line that loads. -/
theorem config_in_range_port : ∃ e front l rest, ∃ cfg : ServerConfig,
    load_config ⟨fun _ _ => true,fun _ _ => none⟩ init_config (str "daemonize yes\nport 65536\n") = some (.error e) ∧
      e = ⟨2,str "port 65536",str "Invalid port"⟩ ∧
      configLines (str "daemonize yes\nport 65536\n") = some (front++l::rest) ∧ front.length = 1 ∧
      cfg.Valid ⟨fun _ _ => true,fun _ _ => none⟩ ∧ cfg.daemonize = true := by
  have hfile : load_config ⟨fun _ _ => true,fun _ _ => none⟩ init_config (str "daemonize yes\nport 65536\n") =
      some (.error ⟨2,str "port 65536",str "Invalid port"⟩) := rfl
  rcases config_in_range ⟨fun _ _ => true,fun _ _ => none⟩ (str "daemonize yes\nport 65536\n") (by decide) with
    ⟨cfg,hok,-⟩ | ⟨e,front,l,rest,cfg,he,hlines,hfront,hvalid,hnum,-⟩
  · rw [hfile] at hok
    cases hok
  · obtain rfl : e = _ := Except.error.inj (Option.some.inj (he.symm.trans hfile))
    have hone : front.length = 1 := by
      have hnum : 2 = front.length+1 := hnum
      omega
    refine ⟨_,front,l,rest,cfg,he,rfl,hlines,hone,hvalid,?_⟩
    obtain ⟨l₀,rfl⟩ := List.length_eq_one_iff.mp hone
    obtain rfl : str "daemonize yes" = l₀ := (List.cons.inj (Option.some.inj (hlines.symm.trans rfl))).1.symm
    have hok : Except.ok {init_config with daemonize := true} = Except.ok (ε:=ConfigError) cfg := hfront
    rw [← Except.ok.inj hok]

end Tadpole
