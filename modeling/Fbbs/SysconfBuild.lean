import Fbbs.SysconfText

/-!
# Compiling the menu configuration

`sysconf_build` and `sysconf_load_image` of `lib/sysconf.c`: the calls of `sysconf_parse` fill
the items, the keys and one buffer of strings.  These are written to an image, and loading it
moves all pointers by the difference of the two buffers.
-/

namespace Fbbs

namespace Sysconf

/-- `SC_BUFSIZE`. -/
def bufSize : Nat := 20480

/-- `SC_KEYSIZE`. -/
def keySize : Nat := 256

/-- `SC_CMDSIZE`. -/
def cmdSize : Nat := 256

/-- `menuitem_t`; a pointer is an address. -/
structure MenuItem where
  line : Int32
  col : Int32
  level : Int32
  name : Int
  desc : Int
  arg : Int
  func : Int

/-- `sizeof(menuitem_t)`. -/
def itemBytes : Nat := 48

/-- `struct sdefine`. -/
structure Define where
  key : Int
  str : Int
  val : Int32

/-- `sizeof(struct sdefine)`. -/
def defineBytes : Nat := 24

/-- `sysconf_t` while it is built.  The bytes of the buffer are numbered from its beginning,
and `peak` is the largest value that `len` has had. -/
structure Conf where
  base : Int
  buf : Nat → UInt8
  item : Nat → MenuItem
  var : Nat → Define
  len : Nat
  items : Nat
  keys : Nat
  peak : Nat

/-- The memory after bytes have been written at a place. -/
def write (memory : Nat → UInt8) (place : Nat) (bytes : Bytes) (i : Nat) : UInt8 :=
  if place ≤ i then (bytes[i - place]?).getD (memory i) else memory i

def Conf.setLen (conf : Conf) (len : Nat) : Conf :=
  { conf with len, peak := max conf.peak len }

/-- `strlcpy` to the end of the buffer.  Beyond the end the room is a negative number, which is
a large one as a `size_t`, and the write goes outside. -/
def Conf.strlcpy (conf : Conf) (src : CString) : Option Conf :=
  if conf.len < bufSize then
    some { conf with
      buf := write conf.buf conf.len (src.bytes.take (bufSize - conf.len - 1) ++ [0]) }
  else if conf.len = bufSize then some conf
  else none

def addstr (conf : Conf) (str : CString) : Option (Int × Conf) :=
  (conf.strlcpy str).map fun copied =>
    let len := conf.len + (str.bytes.length + 1)
    (conf.base + conf.len, copied.setLen (if bufSize < len then bufSize else len))

/-- `strcmp` with the string at an address gives zero. -/
def Conf.strcmp (conf : Conf) (key : CString) (address : Int) : Bool :=
  (List.range (key.bytes.length + 1)).all fun i =>
    conf.buf ((address - conf.base).toNat + i) = (key.bytes ++ [0]).getD i 0

def sysconfEval (conf : Conf) (key : CString) : Int32 :=
  match (List.range conf.keys).find? fun n => conf.strcmp key (conf.var n).key with
  | some n => (conf.var n).val
  | none => .ofInt (strtol none key.bytes)

/-- The value of a key when it is added. -/
def Value.eval (conf : Conf) : Value → Int32
  | .number val => val
  | .flags names => names.foldl (fun val name => val ||| sysconfEval conf name) 0
  | .menu => .ofNat conf.items

def Conf.setVar (conf : Conf) (var : Define) : Conf :=
  { conf with
    var := fun n => if n = conf.keys then var else conf.var n
    keys := conf.keys + 1 }

def addkey (conf : Conf) (key : CString) (str : Option CString) (val : Int32) : Option Conf :=
  if conf.keys < keySize then do
    let (str, conf) ←
      match str with
      | none => some (conf.base, conf)
      | some str => addstr conf str
    let (key, conf) ← addstr conf key
    return conf.setVar ⟨key, str, val⟩
  else some conf

/-- An item is written; behind the array that is outside. -/
def Conf.setItem (conf : Conf) (item : MenuItem) : Option Conf :=
  if conf.items < cmdSize then
    some { conf with
      item := fun n => if n = conf.items then item else conf.item n
      items := conf.items + 1 }
  else none

/-- The body of the loop of `sysconf_addmenu`. -/
def addItem (conf : Conf) (menu : MenuLine) : Option Conf := do
  let line := sysconfEval conf (menu.arg 0)
  let col := sysconfEval conf (menu.arg 1)
  match menu.cmd.bytes.head? with
  | some 64 =>
    let level := sysconfEval conf (menu.arg 2)
    let (name, conf) ← addstr conf (menu.arg 3)
    let (desc, conf) ← addstr conf (menu.arg 4)
    let (func, conf) ← addstr conf (.ofBytes (menu.cmd.bytes.drop 1))
    conf.setItem ⟨line, col, level, name, desc, name, func⟩
  | some 33 =>
    let level := sysconfEval conf (menu.arg 2)
    let (name, conf) ← addstr conf (menu.arg 3)
    let (desc, conf) ← addstr conf (menu.arg 4)
    let (func, conf) ← addstr conf (lit ['d', 'o', 'm', 'e', 'n', 'u'])
    let (arg, conf) ← addstr conf (.ofBytes (menu.cmd.bytes.drop 1))
    conf.setItem ⟨line, col, level, name, desc, arg, func⟩
  | _ =>
    let (name, conf) ← addstr conf menu.cmd
    let (desc, conf) ← addstr conf (menu.arg 2)
    conf.setItem ⟨line, col, -2, name, desc, conf.base, conf.base⟩

/-- The item at the end of a menu; its line and its column are not set. -/
def closeMenu (conf : Conf) : Option Conf :=
  conf.setItem { conf.item conf.items with
    level := -1, name := conf.base, desc := conf.base, arg := conf.base, func := conf.base }

def addmenu (conf : Conf) (key : CString) (lines : List MenuLine) : Option Conf := do
  let conf ← addkey conf key (some (lit ['m', 'e', 'n', 'u'])) (Value.menu.eval conf)
  let conf ← lines.foldlM addItem conf
  closeMenu conf

/-- The loop of `encodestr`: from four equal bytes on, a byte is stored with its number. -/
def encodeBytes : Nat → Bytes → Bytes
  | 0, _ => []
  | _, [] => []
  | fuel + 1, ch :: rest =>
    let more := min (rest.takeWhile (· = ch)).length 99
    if 3 ≤ more then
      [1, ch, (more + 1).toUInt8] ++ encodeBytes fuel (rest.drop more)
    else ch :: encodeBytes fuel rest

def encodestr (str : CString) : CString :=
  .ofBytes (encodeBytes str.bytes.length str.bytes)

/-- The body of the loop of `sysconf_addblock`. -/
def addLine (conf : Conf) (line : CString) : Option Conf :=
  let line := encodestr line
  (conf.strlcpy line).map fun copied => copied.setLen (conf.len + line.bytes.length)

def addblock (conf : Conf) (key : CString) (lines : List CString) : Option Conf :=
  if conf.keys < keySize then do
    let (key, conf) ← addstr conf key
    let conf := conf.setVar ⟨key, conf.base + conf.len, -1⟩
    let conf ← lines.foldlM addLine conf
    return conf.setLen (conf.len + 1)
  else some conf

/-- A call of `sysconf_parse`; included files have been put in their places. -/
def Conf.call (conf : Conf) : Call → Option Conf
  | .addstr str => (addstr conf str).map Prod.snd
  | .addkey key str val => addkey conf key str (val.eval conf)
  | .addmenu key lines => addmenu conf key lines
  | .addblock key lines => addblock conf key lines
  | .parse _ => some conf

/-- The image file. -/
structure Image where
  buf : Int
  menu : List MenuItem
  key : List Define
  bytes : Bytes

/-- What `fwrite` writes of a built configuration. -/
def Conf.image (conf : Conf) : Image where
  buf := conf.base
  menu := (List.range conf.items).map conf.item
  key := (List.range conf.keys).map conf.var
  bytes := (List.range conf.len).map conf.buf

/-- What `malloc` has returned: addresses, and memory that is not initialized. -/
structure Heap where
  base : Int
  buf : Nat → UInt8
  item : Nat → MenuItem
  var : Nat → Define

def Heap.conf (heap : Heap) : Conf :=
  ⟨heap.base, heap.buf, heap.item, heap.var, 0, 0, 0, 0⟩

/-- `sysconf_build`, with the calls that `sysconf_parse` makes. -/
def sysconfBuild (heap : Heap) (calls : List Call) : Option Conf :=
  calls.foldlM Conf.call heap.conf

/-- `sys_conf` after loading. -/
structure Loaded where
  buf : Int
  item : List MenuItem
  var : List Define
  bytes : Bytes

def MenuItem.move (diff : Int) (item : MenuItem) : MenuItem :=
  { item with
    name := item.name + diff, desc := item.desc + diff
    arg := item.arg + diff, func := item.func + diff }

def Define.move (diff : Int) (var : Define) : Define :=
  { var with key := var.key + diff, str := var.str + diff }

/-- `sysconf_load_image` into memory at an address; the difference is an `int`. -/
def sysconfLoadImage (ptr : Int) (image : Image) : Loaded :=
  let buf := ptr + image.menu.length * itemBytes + image.key.length * defineBytes
  let diff := (buf - image.buf).bmod (2 ^ 32)
  { buf
    item := image.menu.map (MenuItem.move diff)
    var := image.key.map (Define.move diff)
    bytes := image.bytes }

/-! ## What the image should be -/

/-- The string at a place, if it ends within the bytes. -/
def stringAt (bytes : Bytes) (place : Nat) : Option Bytes :=
  if 0 ∈ bytes.drop place then some ((bytes.drop place).takeWhile (· ≠ 0)) else none

/-- Two pointers into the two buffers are at the same place, and the same string is there. -/
def SameString (conf : Conf) (loaded : Loaded) (built moved : Int) : Prop :=
  ∃ (place : Nat) (text : Bytes),
    built = conf.base + place ∧ moved = loaded.buf + place ∧
    stringAt ((List.range bufSize).map conf.buf) place = some text ∧
    stringAt loaded.bytes place = some text

structure SameItem (conf : Conf) (loaded : Loaded) (built moved : MenuItem) : Prop where
  line : moved.line = built.line
  col : moved.col = built.col
  level : moved.level = built.level
  name : SameString conf loaded built.name moved.name
  desc : SameString conf loaded built.desc moved.desc
  arg : SameString conf loaded built.arg moved.arg
  func : SameString conf loaded built.func moved.func

structure SameDefine (conf : Conf) (loaded : Loaded) (built moved : Define) : Prop where
  key : SameString conf loaded built.key moved.key
  str : SameString conf loaded built.str moved.str
  val : moved.val = built.val

/-- The loaded image has the items and the keys that have been built. -/
structure SameConf (conf : Conf) (loaded : Loaded) : Prop where
  items : loaded.item.length = conf.items
  item : ∀ n moved, loaded.item[n]? = some moved → SameItem conf loaded (conf.item n) moved
  keys : loaded.var.length = conf.keys
  var : ∀ n moved, loaded.var[n]? = some moved → SameDefine conf loaded (conf.var n) moved

/-- Nothing is written outside the arrays, the buffer is never longer than it may be, and the
image that is loaded at an address is the configuration that has been built. -/
def Faithful (heap : Heap) (ptr : Int) (calls : List Call) : Prop :=
  ∃ conf, sysconfBuild heap calls = some conf ∧ conf.peak ≤ bufSize ∧
    SameConf conf (sysconfLoadImage ptr conf.image)

end Sysconf

end Fbbs
