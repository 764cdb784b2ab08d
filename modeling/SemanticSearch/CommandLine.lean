import SemanticSearch.Download
import SemanticSearch.Sending

namespace SemanticSearch

open FileSystem

/-- A request that a line asks for, with what its response is for. -/
inductive Ask
  | get (server_path local_path : Bytes)
  | delete (server_path : Bytes)
  | upload (overwrite : Bool) (server_path data : Bytes)
  deriving DecidableEq

/-- How the loop goes on: with the next line, or not at all; `died` is an exception that nothing
catches. -/
inductive Turn
  | next | quit | died
  deriving DecidableEq, Repr

inductive Reaction
  | prints (out : Bytes)
  | stops (turn : Turn)
  | asks (a : Ask)
  deriving DecidableEq

def printHelp : Bytes :=
  text "These requests modify the state of the underlying file system of the server\n" ++
  text "  get <server_path>                -- requests the resource from the server and prints it " ++
  text "to stdout/cout.\n" ++
  text "  get <server_path> [local_path]   -- download resource (print or save)\n" ++
  text "  delete <server_path>             -- delete remote resource\n" ++
  text "  post <server_path> <local_path>  -- upload new resource (fail if exists)\n" ++
  text "  put <server_path> <local_path>   -- upload/replace resource\n" ++
  text "  help                             -- this message\n" ++
  text "  quit | exit                      -- quit\n"

/-- What `std::ifstream` and its iterators make of a local path. A directory can be opened, and
the first read from it throws. -/
inductive LocalFile
  | unopened
  | unreadable
  | bytes (data : Bytes)

def openLocal (fs : FileSystem) (local_path : Bytes) : LocalFile :=
  match fs.resolve local_path with
  | .error _ => .unopened
  | .ok q =>
    match fs.entries[q]? with
    | some (.file data) => .bytes data
    | _ => .unreadable

/-- The body of the loop, up to `SendHttpRequest`. -/
def react (fs : FileSystem) (line : Bytes) : Reaction :=
  if line = [] then .prints []
  else
    let (command, input_string) := (extractWord line).getD ([], [])
    if command = text "quit" ∨ command = text "exit" then .stops .quit
    else if command = text "help" then .prints printHelp
    else if command = text "get" then
      let (server_path, local_path) := arguments input_string
      if server_path = [] then .prints (text "get requires <server_path>\n")
      else .asks (.get server_path local_path)
    else if command = text "delete" then
      let server_path := ((extractWord input_string).map Prod.fst).getD []
      if server_path = [] then .prints (text "delete requires <server_path>\n")
      else .asks (.delete server_path)
    else if command = text "post" ∨ command = text "put" then
      let (server_path, local_path) := arguments input_string
      if server_path = [] ∨ local_path = [] then
        .prints (command ++ text " requires <server_path> <local_path>\n")
      else match openLocal fs local_path with
        | .unopened => .prints (text "failed to open " ++ local_path ++ [newline])
        | .unreadable => .stops .died
        | .bytes data => .asks (.upload (decide (command ≠ text "post")) server_path data)
    else .prints (text "unknown command: " ++ command ++ text " (type help)\n")

namespace Ask

def method : Ask → Bytes
  | get _ _ => text "GET"
  | delete _ => text "DELETE"
  | upload overwrite _ _ => if overwrite then text "PUT" else text "POST"

def server_path : Ask → Bytes
  | get server_path _ => server_path
  | delete server_path => server_path
  | upload _ server_path _ => server_path

def body : Ask → Bytes
  | upload _ _ data => data
  | _ => []

def request (host port : Bytes) (a : Ask) : Bytes :=
  sendHttpRequest host port a.method (staticPath a.server_path) a.body

end Ask

def deleteReceived : Option Bytes → Bytes
  | none => text "request failed\n"
  | some http_response =>
    match parseStatus http_response with
    | none => text "failed to parse response\n"
    | some code =>
      if 200 ≤ code ∧ code < 300 then text "OK\n" else text "HTTP " ++ decimalInt code ++ [newline]

/-- `post` and `put`. The code stays 0 where `ParseStatus` fails. -/
def uploadReceived : Option Bytes → Bytes
  | none => text "request failed\n"
  | some http_response =>
    let code := (parseStatus http_response).getD 0
    if 200 ≤ code ∧ code < 300 then text "OK\n" else reasonPhrase http_response ++ [newline]

/-- What is printed, and the local files after. -/
def Ask.received (fs : FileSystem) (a : Ask) (http_response : Option Bytes) : Bytes × FileSystem :=
  match a with
  | .get _ local_path =>
    let g := getReceived fs local_path http_response
    (g.out, g.fs)
  | .delete _ => (deleteReceived http_response, fs)
  | .upload _ _ _ => (uploadReceived http_response, fs)

/-- One connection: what the client's writes take, the pieces in which it arrives with whatever
comes behind it, and the same for the response. -/
structure Carrier where
  writes : List Wrote
  up : Bytes → Socket
  answers : List Wrote
  down : Bytes → Socket

/-- What the server's writes take of the responses, one after the other. -/
def sendEach : List Wrote → List Bytes → Bytes
  | _, [] => []
  | writes, response :: responses =>
    (sendAll writes response).bytes ++ sendEach (sendAll writes response).writes responses

variable {V : Type}

/-- `SendHttpRequest` and the server's side of its connection, if there is one. An exception in
`HandleClient` ends the server. -/
def exchange (ctx : ClientCtx V) (server : Option (World V)) (request : Bytes) :
    Option Carrier → Option Bytes × Option (World V)
  | none => (none, server)
  | some c =>
    match server with
    | none => (none, none)
    | some w =>
      let sent := sendAll c.writes request
      match handleClient ctx ⟨w, c.up sent.bytes, []⟩ with
      | .error _ => (if sent.ok then receive (c.down []) [] else none, none)
      | .ok conn =>
        (if sent.ok then receive (c.down (sendEach c.answers (conn.served.map Prod.snd))) []
          else none, some conn.world)

/-- The client's side: its files, what it has printed, and whether it goes on. -/
structure Desk where
  fs : FileSystem
  out : Bytes := []
  turn : Turn := .next

/-- The client, and the server unless an exception has ended it. The two have files of their own. -/
structure Shell (V : Type) extends Desk where
  server : Option (World V)

def prompt : Bytes := text ">> "

section Loop

variable (ctx : ClientCtx V) (host port : Bytes)

/-- One turn of the loop: a line, and the connection if it asks for one. -/
def shellStep (s : Shell V) (x : Bytes × Option Carrier) : Shell V :=
  if s.turn = .next then
    match react s.fs x.1 with
    | .prints out => { s with out := s.out ++ prompt ++ out }
    | .stops turn => { s with out := s.out ++ prompt, turn }
    | .asks a =>
      let (http_response, server) := exchange ctx s.server (a.request host port) x.2
      let (out, fs) := a.received s.fs http_response
      { s with fs, out := s.out ++ prompt ++ out, server }
  else s

/-- The lines of the input, each with its connection. -/
def inputLines (stdin : Bytes) (carriers : ℕ → Option Carrier) : List (Bytes × Option Carrier) :=
  (getlines newline stdin).zipIdx.map fun (line, i) => (line, carriers i)

def Shell.welcome (s : Shell V) : Shell V := { s with out := s.out ++ printHelp }

/-- The prompt before the end of the input. -/
def Desk.leave (d : Desk) : Desk := if d.turn = .next then { d with out := d.out ++ prompt } else d

/-- `main` behind its arguments. -/
def shellMain (stdin : Bytes) (carriers : ℕ → Option Carrier) (s : Shell V) : Shell V :=
  let s' := (inputLines stdin carriers).foldl (shellStep ctx host port) s.welcome
  { s' with toDesk := s'.toDesk.leave }

end Loop

/-- The port argument: `std::stoi`, refused below 1024, of which the socket takes 16 bits. -/
def portArgument (arg : Bytes) : Except Bytes ℕ :=
  match extractInt arg with
  | none => .error (text "Error: port must be a valid integer\n")
  | some port_int =>
    if port_int < 1024 then .error (text "Error: port must be >= 1024\n")
    else .ok (port_int.toNat % 2 ^ 16)

/-- `main`: what it writes to `stderr`, or the end of the session. -/
def searchclient (ctx : ClientCtx V) (argv : List Bytes) (stdin : Bytes)
    (carriers : ℕ → Option Carrier) (s : Shell V) : Except Bytes (Shell V) :=
  match argv with
  | _ :: server :: arg :: _ => do
    let port ← portArgument arg
    return shellMain ctx server (decimal port) stdin carriers s
  | _ => .error (text "Usage: " ++ argv.headD [] ++ text " <server> <port>\n")

end SemanticSearch
