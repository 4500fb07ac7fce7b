import Ircd.Auth.Elsewhere
import Ircd.Auth.Gate
import Ircd.Auth.Held
import Ircd.Auth.Hurry
import Ircd.Auth.IauthLines
import Ircd.Auth.Identity
import Ircd.Auth.Mark
import Ircd.Auth.Requests
import Ircd.Auth.Sound
import Ircd.Auth.UserNames
import Ircd.Buffers.Dbuf
import Ircd.Buffers.DbufFifo
import Ircd.Buffers.DbufLines
import Ircd.Buffers.DbufPut
import Ircd.Buffers.DbufRuns
import Ircd.Buffers.LinkLines
import Ircd.Buffers.Mapping
import Ircd.Buffers.MsgQueue
import Ircd.Buffers.Packet
import Ircd.Buffers.PacketLines
import Ircd.Buffers.Pool
import Ircd.Buffers.PoolRefs
import Ircd.Buffers.PoolRuns
import Ircd.Buffers.SendQueues
import Ircd.Buffers.Sentalong
import Ircd.Channels.BanCache
import Ircd.Channels.BanCacheRooms
import Ircd.Channels.BanCacheSound
import Ircd.Channels.BanChanges
import Ircd.Channels.BanCover
import Ircd.Channels.Burst
import Ircd.Channels.BurstBuffers
import Ircd.Channels.BurstLines
import Ircd.Channels.BurstModes
import Ircd.Channels.BurstRuns
import Ircd.Channels.Clearmode
import Ircd.Channels.DelayedJoinRuns
import Ircd.Channels.DelayedJoins
import Ircd.Channels.FindBan
import Ircd.Channels.HiddenJoins
import Ircd.Channels.Invites
import Ircd.Channels.JoinReset
import Ircd.Channels.LimitFlag
import Ircd.Channels.LimitFlagRuns
import Ircd.Channels.MemberCodec
import Ircd.Channels.Membership
import Ircd.Channels.MembershipRuns
import Ircd.Channels.ModeBuf
import Ircd.Channels.ModeBufAlign
import Ircd.Channels.ModeBufFlush
import Ircd.Channels.ModeBufRuns
import Ircd.Channels.ModeExchange
import Ircd.Channels.ModeParse
import Ircd.Channels.Modes
import Ircd.Channels.NetRide
import Ircd.Channels.OlderWins
import Ircd.Channels.PrettyMask
import Ircd.Channels.RejectedMode
import Ircd.Channels.SendModes
import Ircd.Channels.SourceBurst
import Ircd.Channels.SourceModes
import Ircd.Channels.State
import Ircd.Channels.Timestamps
import Ircd.Conf.Classes
import Ircd.Crule.Completeness
import Ircd.Crule.Grammar
import Ircd.Crule.Memory
import Ircd.Crule.Operands
import Ircd.Crule.Parser
import Ircd.Crule.Reading
import Ircd.Ddb.Answers
import Ircd.Ddb.Burst
import Ircd.Ddb.Counters
import Ircd.Ddb.Hash
import Ircd.Ddb.HashCheck
import Ircd.Ddb.HubLeaf
import Ircd.Ddb.Join
import Ircd.Ddb.LineCodec
import Ircd.Ddb.Lookup
import Ircd.Ddb.Relay
import Ircd.Ddb.RelayedLines
import Ircd.Ddb.Reload
import Ircd.Ddb.Replication
import Ircd.Ddb.Resident
import Ircd.Ddb.Restart
import Ircd.Ddb.Seek
import Ircd.Ddb.Store
import Ircd.Ddb.TableFile
import Ircd.Ddb.TableViews
import Ircd.Ddb.Tables
import Ircd.Destruct.EventLists
import Ircd.Destruct.EventRuns
import Ircd.Destruct.Events
import Ircd.Events.Sockets
import Ircd.Events.TimerRuns
import Ircd.Events.Timers
import Ircd.Glines.Checkmask
import Ircd.Glines.Crossing
import Ircd.Glines.Merge
import Ircd.Glines.Message
import Ircd.Glines.Modify
import Ircd.Glines.Receive
import Ircd.Glines.Wire
import Ircd.Hash.NickJupes
import Ircd.Hash.Tables
import Ircd.IpRegistry.Attempts
import Ircd.IpRegistry.Classes
import Ircd.IpRegistry.Counting
import Ircd.IpRegistry.Elapsed
import Ircd.IpRegistry.Links
import Ircd.IpRegistry.Registry
import Ircd.IpRegistry.Runs
import Ircd.Jupes.Exchange
import Ircd.Library.BinarySearch
import Ircd.Library.BlockSwap
import Ircd.Library.Blocks
import Ircd.Library.Chain
import Ircd.Library.Deal
import Ircd.Library.EarlyReturn
import Ircd.Library.Glob
import Ircd.Library.GlobCover
import Ircd.Library.GlobNormal
import Ircd.Library.GlobPlaced
import Ircd.Library.HashChains
import Ircd.Library.LeakyBucket
import Ircd.Library.Lines
import Ircd.Library.LogShipping
import Ircd.Library.Loop
import Ircd.Library.Pack
import Ircd.Library.PrevNext
import Ircd.Library.Probing
import Ircd.Library.Runs
import Ircd.Library.Slots
import Ircd.Library.Stamps
import Ircd.Library.Trie
import Ircd.Library.TwoEnded
import Ircd.Library.TwoWay
import Ircd.Library.Words
import Ircd.Match.Agreement
import Ircd.Match.Collapse
import Ircd.Match.CollapseLanguage
import Ircd.Match.Compiled
import Ircd.Match.CompiledLanguage
import Ircd.Match.Decomp
import Ircd.Match.Mask
import Ircd.Match.Mmatch
import Ircd.Match.Mmexec
import Ircd.Match.MmexecSound
import Ircd.Match.Plain
import Ircd.Match.PlainEscapes
import Ircd.Match.PlainLanguage
import Ircd.Monitor.Records
import Ircd.Net.InAddr
import Ircd.Net.IpBits
import Ircd.Net.IpChars
import Ircd.Net.IpRoundTrip
import Ircd.Net.IpText
import Ircd.Net.MaskCheck
import Ircd.Net.MaskWidth
import Ircd.Numnicks.Base64
import Ircd.Numnicks.Clients
import Ircd.Numnicks.IpBase64
import Ircd.Numnicks.IpBase64Bounds
import Ircd.Parse.Canonize
import Ircd.Parse.CommandTrie
import Ircd.Parse.Dispatch
import Ircd.Parse.Lines
import Ircd.Parse.Messages
import Ircd.Parse.Parameters
import Ircd.Parse.Tokens
import Ircd.Parse.UniqueNames
import Ircd.Passwords.NickPass
import Ircd.Passwords.Tea
import Ircd.Silences.Forward
import Ircd.Silences.Limits
import Ircd.Silences.Silence
import Ircd.Silences.Update
import Ircd.Text.Chattr
import Ircd.Text.Lines
import Ircd.Text.Numbers
import Ircd.Text.Strhash
import Ircd.Users.CapRequests
import Ircd.Users.Capabilities
import Ircd.Users.NickCollision
import Ircd.Users.NickRecords
import Ircd.Users.NickRegister
import Ircd.Users.OperCount
import Ircd.Users.OperPrivs
import Ircd.Users.SetUserMode
import Ircd.Users.Targets
import Ircd.Users.Umodes
import Ircd.Whowas.History
import Ircd.Whowas.Records
