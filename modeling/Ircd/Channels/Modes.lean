import Ircd.Channels.State

/-! `channel_modes`: the mode string and the parameters that describe a channel. -/

set_option autoImplicit false

namespace Ircd.Channels
open Ircd.Text

/-- What `channel_modes` asks about the client it writes for. -/
structure Viewer where
  server : Bool
  myUser : Bool
  chanOp : Bool
  manager : Bool

def forServer : Viewer := ⟨true, false, false, false⟩

def letters (m : Mode) (table : List (Flag × Char)) : List Char :=
  table.filterMap fun entry => if m.mode entry.1 then some entry.2 else none

def firstLetters : List (Flag × Char) :=
  [(.moderated, 'm'), (.topicLimit, 't'), (.inviteOnly, 'i'), (.noPrivMsgs, 'n'), (.registered, 'r')]

def lastLetters : List (Flag × Char) :=
  [(.regOnly, 'R'), (.operOnly, 'O'), (.noColor, 'c'), (.noCtcp, 'C'), (.moderateNoReg, 'M'), (.noNotice, 'N'),
    (.msgNonWeb, 'W'), (.noQuitParts, 'u'), (.sslOnly, 'z')]

def simpleLetters (viewer : Viewer) (m : Mode) : List Char :=
  (if m.mode .secret then ['s'] else if m.mode .priv then ['p'] else []) ++ letters m firstLetters ++
    (if m.mode .delJoins then ['D'] else if viewer.myUser && m.mode .wasDelJoins then ['d'] else []) ++
    letters m lastLetters

/-- A parameter mode: its letter and what is appended to `pbuf`. -/
def parameter (letter : Char) (present : Bool) (text : List Char) : List (Char × List Char) :=
  if present then [(letter, text)] else []

def parameters (viewer : Viewer) (m : Mode) : List (Char × List Char) :=
  parameter 'l' (m.limit ≠ 0) (Nat.toDigits 10 m.limit) ++
    parameter 'k' (m.key ≠ []) (if viewer.chanOp || viewer.server then m.key else ['*']) ++
    parameter 'A' (m.apass ≠ []) (if viewer.server then m.apass else ['*']) ++
    parameter 'U' (m.upass ≠ []) (if viewer.server || viewer.manager then m.upass else ['*'])

/-- `channel_modes`: what it leaves in `mbuf` and in `pbuf`, where blanks part the parameters. -/
def channelModes (viewer : Viewer) (m : Mode) : List Char × List Char :=
  ('+' :: (simpleLetters viewer m ++ (parameters viewer m).map (·.1)),
    [' '].intercalate ((parameters viewer m).map (·.2)))

end Ircd.Channels
