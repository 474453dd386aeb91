import NovaDb.Mgl.LockDefines
import NovaDb.Mgl.MglMgr
import NovaDb.Mgl.Bookkeeping
import NovaDb.Mgl.Sched
import NovaDb.Mgl.Refinement
import NovaDb.Mgl.Safety
import NovaDb.Slots.Bitset
import NovaDb.Slots.RunVec
import NovaDb.Slots.Binary
import NovaDb.Slots.Text
import NovaDb.Mgl.Progress
import NovaDb.Mgl.Deadlock
import NovaDb.Storage.Pessimistic
import NovaDb.Server.Params
import NovaDb.Commands.Auth
import NovaDb.Utils.Atom
import NovaDb.Utils.RateLimiter
import NovaDb.Utils.EasyCopy
