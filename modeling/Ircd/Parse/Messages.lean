import Ircd.Text.Lines

/-! The commands: `msgtab` of `parse.c`, and the messages of the services that the configuration maps.
-/

set_option autoImplicit false

namespace Ircd.Parse
open Ircd.Text

def mflgSlow : Nat := 1
def mflgUnreg : Nat := 2
def mflgIgnore : Nat := 4
def mflgExtra : Nat := 8

/-- `IsAlpha` of every character of a string, so also of the empty one. -/
def strIsAlpha (s : List Char) : Bool := s.all isAlpha

structure ServiceMap where
  command : List Char
  name : Option (List Char)
  services : List (List Char)
  fast : Bool
  deriving DecidableEq

/-- A command, with its token, the number of parameters from which on the rest of a line is one, and
the service map if it is a service's. The counts are left out, and the handlers: each is there. -/
structure Message where
  cmd : List Char
  tok : List Char
  parameters : Nat
  flags : Nat
  extra : Option ServiceMap
  deriving DecidableEq

def Message.builtin (cmd tok : String) (parameters flags : Nat) : Message :=
  ⟨cmd.toList, tok.toList, parameters, flags, none⟩

/-- The message that `register_mapping` makes. -/
def ServiceMap.message (map : ServiceMap) : Message where
  cmd := map.command
  tok := map.command
  parameters := 2
  flags := if map.fast then mflgExtra else mflgExtra ||| mflgSlow
  extra := some map

def msgtab : List Message := [
  .builtin "PRIVMSG" "P" maxPara mflgSlow,
  .builtin "NICK" "N" maxPara (mflgSlow ||| mflgUnreg),
  .builtin "NOTICE" "O" maxPara (mflgSlow ||| mflgIgnore),
  .builtin "WALLCHOPS" "WC" maxPara mflgSlow,
  .builtin "WALLVOICES" "WV" maxPara mflgSlow,
  .builtin "CPRIVMSG" "CP" maxPara mflgSlow,
  .builtin "CNOTICE" "CN" maxPara mflgSlow,
  .builtin "JOIN" "J" maxPara mflgSlow,
  .builtin "MODE" "M" maxPara mflgSlow,
  .builtin "BURST" "B" maxPara mflgSlow,
  .builtin "CREATE" "C" maxPara mflgSlow,
  .builtin "DESTRUCT" "DE" maxPara mflgSlow,
  .builtin "QUIT" "Q" maxPara (mflgSlow ||| mflgUnreg),
  .builtin "PART" "L" maxPara mflgSlow,
  .builtin "TOPIC" "T" maxPara mflgSlow,
  .builtin "INVITE" "I" maxPara mflgSlow,
  .builtin "KICK" "K" maxPara mflgSlow,
  .builtin "WALLOPS" "WA" maxPara mflgSlow,
  .builtin "WALLUSERS" "WU" maxPara mflgSlow,
  .builtin "DESYNCH" "DS" maxPara mflgSlow,
  .builtin "PING" "G" maxPara mflgSlow,
  .builtin "PONG" "Z" maxPara (mflgSlow ||| mflgUnreg),
  .builtin "ERROR" "Y" maxPara (mflgSlow ||| mflgUnreg),
  .builtin "KILL" "D" maxPara mflgSlow,
  .builtin "USER" "USER" maxPara mflgSlow,
  .builtin "AWAY" "A" maxPara mflgSlow,
  .builtin "ISON" "ISON" 1 mflgSlow,
  .builtin "SERVER" "S" maxPara (mflgSlow ||| mflgUnreg),
  .builtin "SQUIT" "SQ" maxPara mflgSlow,
  .builtin "WHOIS" "W" maxPara mflgSlow,
  .builtin "WHO" "H" maxPara mflgSlow,
  .builtin "WHOWAS" "X" maxPara mflgSlow,
  .builtin "LIST" "LIST" maxPara mflgSlow,
  .builtin "NAMES" "E" maxPara mflgSlow,
  .builtin "USERHOST" "USERHOST" 1 mflgSlow,
  .builtin "USERIP" "USERIP" 1 mflgSlow,
  .builtin "TRACE" "TR" maxPara mflgSlow,
  .builtin "PASS" "PA" maxPara (mflgSlow ||| mflgUnreg),
  .builtin "LUSERS" "LU" maxPara mflgSlow,
  .builtin "USERS" "US" maxPara mflgSlow,
  .builtin "TIME" "TI" maxPara mflgSlow,
  .builtin "SETTIME" "SE" maxPara mflgSlow,
  .builtin "RPING" "RI" maxPara mflgSlow,
  .builtin "RPONG" "RO" maxPara mflgSlow,
  .builtin "OPER" "OPER" maxPara mflgSlow,
  .builtin "CONNECT" "CO" maxPara mflgSlow,
  .builtin "MAP" "MAP" maxPara mflgSlow,
  .builtin "VERSION" "V" maxPara (mflgSlow ||| mflgUnreg),
  .builtin "STATS" "R" maxPara mflgSlow,
  .builtin "LINKS" "LI" maxPara mflgSlow,
  .builtin "ADMIN" "AD" maxPara (mflgSlow ||| mflgUnreg),
  .builtin "HELP" "HELP" maxPara mflgSlow,
  .builtin "INFO" "F" maxPara mflgSlow,
  .builtin "MOTD" "MO" maxPara mflgSlow,
  .builtin "CLOSE" "CLOSE" maxPara mflgSlow,
  .builtin "SILENCE" "U" maxPara mflgSlow,
  .builtin "GLINE" "GL" maxPara 0,
  .builtin "JUPE" "JU" maxPara mflgSlow,
  .builtin "OPMODE" "OM" maxPara mflgSlow,
  .builtin "CLEARMODE" "CM" maxPara mflgSlow,
  .builtin "UPING" "UP" maxPara mflgSlow,
  .builtin "END_OF_BURST" "EB" maxPara mflgSlow,
  .builtin "EOB_ACK" "EA" maxPara mflgSlow,
  .builtin "HASH" "HASH" maxPara mflgSlow,
  .builtin "REHASH" "REHASH" maxPara mflgSlow,
  .builtin "RESTART" "RESTART" maxPara mflgSlow,
  .builtin "DIE" "DIE" maxPara mflgSlow,
  .builtin "PROTO" "PROTO" maxPara mflgSlow,
  .builtin "SET" "SET" maxPara mflgSlow,
  .builtin "RESET" "RESET" maxPara mflgSlow,
  .builtin "GET" "GET" maxPara mflgSlow,
  .builtin "PRIVS" "PR" maxPara mflgSlow,
  .builtin "ACCOUNT" "AC" maxPara mflgSlow,
  .builtin "ASLL" "LL" maxPara mflgSlow,
  .builtin "WEBIRC" "WEBIRC" maxPara mflgSlow,
  .builtin "PROXY" "PROXY" maxPara mflgSlow,
  .builtin "XQUERY" "XQ" maxPara mflgSlow,
  .builtin "XREPLY" "XR" maxPara mflgSlow,
  .builtin "CAP" "CAP" maxPara 0,
  .builtin "DB" "DB" maxPara mflgSlow,
  .builtin "DBQ" "DBQ" maxPara mflgSlow,
  .builtin "BMODE" "BM" maxPara mflgSlow,
  .builtin "GHOST" "GHOST" maxPara mflgSlow,
  .builtin "SVSNICK" "SN" maxPara mflgSlow,
  .builtin "SVSMODE" "SM" maxPara mflgSlow,
  .builtin "SVSJOIN" "SJ" maxPara mflgSlow,
  .builtin "SVSPART" "SL" maxPara mflgSlow,
  .builtin "POST" "POST" maxPara mflgSlow,
  .builtin "FINGERPRINT" "FP" maxPara 0,
  .builtin "STARTTLS" "STARTTLS" maxPara 0,
  .builtin "MONITOR" "MONITOR" maxPara mflgSlow]

end Ircd.Parse
